import AlaphiOS.Sched.RosterInv

/-!
# Wait queues

What a step of the kernel does to the mutexes and the wait queues: `QueuedResource` has
two queues, `waiters` of the mutex and `cond_waiters`, and `CondVar` has one. `Touch`
lists the steps that change any of them, and `step_touch` says that there are no
others. From it come the facts the invariants use: `Touch.locked` about the flag of a
mutex and `Touch.queue` about a queue.
-/

namespace AlaphiOS.Sched

open Lib Function Resource

/-- A wait, named by the queue the waiting task is in. -/
inductive Wait where
  /-- `lock` of a resource. -/
  | mutex (r : Nat)
  /-- `wait` of a resource. -/
  | cond (r : Nat)
  | condvar (c : Nat)
  deriving DecidableEq

/-- At a round of `lock` of this resource, which can be the one in `wait`. -/
def Pc.locks : Pc → Option Nat
  | .lock r | .condLock r => some r
  | _ => none

namespace Kernel

/-- The tids in the queue of a wait. -/
def queueOf (resources : Nat → Resource) (condvars : Nat → List Nat) : Wait → List Nat
  | .mutex r => (resources r).waiters
  | .cond r => (resources r).condWaiters
  | .condvar c => condvars c

/-- The queue of a wait. -/
def queue (k : Kernel) : Wait → List Nat := queueOf k.resources k.condvars

/-- The wait that the running task begins in this step. -/
def enters (k : Kernel) : Op → Option Wait
  | .call (.condWait r) => some (.cond r)
  | .call (.cvWait c) => some (.condvar c)
  | .next _ =>
    match (k.pc k.cpu).locks with
    | some r => if (k.resources r).locked then some (.mutex r) else none
    | none => none
  | _ => none

/-- The running task takes the mutex of `r` in this step. -/
def acquires (k : Kernel) (r : Nat) : Op → Bool
  | .call (.tryLock r') => r' == r && !(k.resources r).locked
  | .next _ => (k.pc k.cpu).locks == some r && !(k.resources r).locked
  | _ => false

/-- It unlocks the mutex of `r`, in `unlock` or in `wait`. -/
def releases (k : Kernel) (r : Nat) : Op → Bool
  | .call (.unlock r') => r' == r
  | .next _ =>
    match k.pc k.cpu with
    | .condUnlock r' => r' == r
    | _ => false
  | _ => false

variable {k k' : Kernel} {es : List Event} {op : Op} {r : Nat}

/-- What a step can do to the resources and the condition variables. -/
inductive Touch (k : Kernel) : Op → (Nat → Resource) → (Nat → List Nat) → Prop
  | quiet {op : Op} (ha : ∀ r, k.acquires r op = false) (hr : ∀ r, k.releases r op = false)
      (he : k.enters op = none) : Touch k op k.resources k.condvars
  | tryLock {r : Nat} (h : (k.resources r).locked = false) :
      Touch k (.call (.tryLock r))
        (update k.resources r { k.resources r with locked := true }) k.condvars
  | lock {n r : Nat} (hpc : (k.pc k.cpu).locks = some r) (h : (k.resources r).locked = false) :
      Touch k (.next n)
        (update k.resources r { k.resources r with locked := true }) k.condvars
  | park {n r : Nat} (hpc : (k.pc k.cpu).locks = some r) (h : (k.resources r).locked = true) :
      Touch k (.next n) (update k.resources r { k.resources r with
        waiters := (k.resources r).waiters ++ [k.cpu] }) k.condvars
  | unlock {r : Nat} :
      Touch k (.call (.unlock r)) (update k.resources r { k.resources r with
        locked := false, waiters := (k.resources r).waiters.tail }) k.condvars
  | condUnlock {n r : Nat} (hpc : k.pc k.cpu = .condUnlock r) :
      Touch k (.next n) (update k.resources r { k.resources r with
        locked := false, waiters := (k.resources r).waiters.tail }) k.condvars
  | condPark {r : Nat} :
      Touch k (.call (.condWait r)) (update k.resources r { k.resources r with
        condWaiters := (k.resources r).condWaiters ++ [k.cpu] }) k.condvars
  | signal {r : Nat} {t : Nat} {ts : List Nat} (h : (k.resources r).condWaiters = t :: ts) :
      Touch k (.call (.signal r)) (update k.resources r { k.resources r with
        condWaiters := ts }) k.condvars
  | broadcast {n r : Nat} {t : Nat} {ts : List Nat} (hpc : k.pc k.cpu = .broadcast r)
      (h : (k.resources r).condWaiters = t :: ts) :
      Touch k (.next n) (update k.resources r { k.resources r with
        condWaiters := ts }) k.condvars
  | cvPark {c : Nat} :
      Touch k (.call (.cvWait c)) k.resources
        (update k.condvars c (k.condvars c ++ [k.cpu]))
  | cvSignal {c t : Nat} {ts : List Nat} (h : k.condvars c = t :: ts) :
      Touch k (.call (.cvSignal c)) k.resources (update k.condvars c ts)
  | cvBroadcast {c : Nat} :
      Touch k (.call (.cvBroadcast c)) k.resources (update k.condvars c [])

/-! ## Every step is one of these -/

variable {n t : Nat} {p : Pc}

theorem goto_pc_at {k : Kernel} (h : k.cpu = t) : (k.goto p).pc t = p := by
  rw [← h]
  exact update_self ..

theorem markBlocked_frame (k : Kernel) (t : Nat) :
    (k.markBlocked t).1.resources = k.resources ∧ (k.markBlocked t).1.condvars = k.condvars ∧
      (k.markBlocked t).1.pc = k.pc ∧ (k.markBlocked t).1.cpu = k.cpu := by
  unfold markBlocked
  split <;> exact ⟨rfl, rfl, rfl, rfl⟩

theorem unblockTid_frame (k : Kernel) (t : Nat) :
    (k.unblockTid t).1.resources = k.resources ∧ (k.unblockTid t).1.condvars = k.condvars ∧
      (k.unblockTid t).1.pc = k.pc ∧ (k.unblockTid t).1.cpu = k.cpu := by
  unfold unblockTid
  split <;> exact ⟨rfl, rfl, rfl, rfl⟩

theorem unblockAll_frame (ts : List Nat) (k : Kernel) :
    (k.unblockAll ts).1.resources = k.resources ∧ (k.unblockAll ts).1.condvars = k.condvars ∧
      (k.unblockAll ts).1.pc = k.pc ∧ (k.unblockAll ts).1.cpu = k.cpu := by
  induction ts generalizing k with
  | nil => exact ⟨rfl, rfl, rfl, rfl⟩
  | cons t ts ih =>
    obtain ⟨hr, hc, hpc, hcpu⟩ := ih (k.unblockTid t).1
    obtain ⟨hr', hc', hpc', hcpu'⟩ := k.unblockTid_frame t
    exact ⟨hr.trans hr', hc.trans hc', hpc.trans hpc', hcpu.trans hcpu'⟩

theorem dispatch_frame (h : k.dispatch = some (k', es)) :
    k'.resources = k.resources ∧ k'.condvars = k.condvars ∧
      (k'.pc = k.pc ∨ k'.pc = update k.pc k.cpu .lost) := by
  obtain ⟨⟨pair, sched, tasks⟩, _, h⟩ := bind_inv h
  cases pair with
  | none =>
    cases h
    exact ⟨rfl, rfl, .inl rfl⟩
  | some pair =>
    cases h
    refine ⟨rfl, rfl, ?_⟩
    dsimp only [switchTo]
    split
    · exact .inr rfl
    · exact .inl rfl

theorem timer_frame (h : k.timer n = some (k', es)) :
    k'.resources = k.resources ∧ k'.condvars = k.condvars ∧
      (k'.pc = k.pc ∨ k'.pc = update k.pc k.cpu .lost) := by
  obtain ⟨⟨sched, tasks⟩, _, h⟩ := bind_inv h
  dsimp only at h
  split at h
  · cases h
    exact ⟨rfl, rfl, .inl rfl⟩
  · exact dispatch_frame (k := ({ k with sched := sched, tasks := tasks }).shouldReschedule) h

theorem touch_of_eq {res : Nat → Resource} {cvs : Nat → List Nat} (h : Touch k op res cvs)
    (hr : k'.resources = res) (hc : k'.condvars = cvs) : Touch k op k'.resources k'.condvars := by
  rw [hr, hc]
  exact h

theorem touch_call {c : Call} : Touch k (.call c) (k.call c).1.resources (k.call c).1.condvars := by
  have hquiet : ∀ {c}, (∀ r, k.acquires r (.call c) = false) → (∀ r, k.releases r (.call c) = false) →
      k.enters (.call c) = none → Touch k (.call c) k.resources k.condvars := fun ha hr he =>
    .quiet ha hr he
  cases c with
  | tryLock r =>
    dsimp only [call]
    split
    next hlocked =>
      refine hquiet (fun r' => ?_) (fun _ => rfl) rfl
      by_cases hr : r = r'
      · subst hr
        simp [acquires, hlocked]
      · simp [acquires, hr]
    next hfree => exact .tryLock (Bool.eq_false_iff.mpr hfree)
  | unlock r =>
    dsimp only [call, unlockStep]
    split <;> exact .unlock
  | condWait r => exact .condPark
  | signal r =>
    dsimp only [call, signalStep]
    split
    · exact hquiet (fun _ => rfl) (fun _ => rfl) rfl
    next t ts hcons =>
      have hframe := unblockTid_frame { k with
        resources := update k.resources r { k.resources r with condWaiters := ts } } t
      exact touch_of_eq (.signal hcons) hframe.1 hframe.2.1
  | cvWait c =>
    have hframe := markBlocked_frame { k with
      condvars := update k.condvars c (k.condvars c ++ [k.cpu]) } k.cpu
    exact touch_of_eq .cvPark hframe.1 hframe.2.1
  | cvSignal c =>
    dsimp only [call]
    split
    · exact hquiet (fun _ => rfl) (fun _ => rfl) rfl
    next t ts hcons =>
      have hframe := unblockTid_frame { k with condvars := update k.condvars c ts } t
      exact touch_of_eq (.cvSignal hcons) hframe.1 hframe.2.1
  -- `unblockAll` is done under the lock of the queue, in one step.
  | cvBroadcast c =>
    have hframe := unblockAll_frame (k.condvars c) { k with
      condvars := update k.condvars c [] }
    exact touch_of_eq .cvBroadcast hframe.1 hframe.2.1
  | lock | broadcast | wait | spawn | yield => exact hquiet (fun _ => rfl) (fun _ => rfl) rfl
  | exit | kill | clone | fork =>
    dsimp only [call]
    repeat' split
    all_goals exact hquiet (fun _ => rfl) (fun _ => rfl) rfl

theorem touch_lockStep (hpc : (k.pc k.cpu).locks = some r) :
    Touch k (.next n) (k.lockStep r).1.resources (k.lockStep r).1.condvars := by
  unfold lockStep
  dsimp only
  split
  next hlocked =>
    let res : Resource := { k.resources r with waiters := (k.resources r).waiters ++ [k.cpu] }
    have hframe := markBlocked_frame { k with resources := update k.resources r res } k.cpu
    exact touch_of_eq (.park hpc hlocked) hframe.1 hframe.2.1
  next hfree => exact .lock hpc (Bool.eq_false_iff.mpr hfree)

theorem releases_next (h : ∀ r, k.pc k.cpu ≠ .condUnlock r) : k.releases r (.next n) = false := by
  unfold releases
  cases hpc : k.pc k.cpu <;> first | rfl | exact absurd hpc (h _)

theorem releases_of_locks {r' : Nat} (h : (k.pc k.cpu).locks = some r') :
    k.releases r (.next n) = false := by
  refine releases_next fun r₁ hpc => ?_
  rw [hpc] at h
  cases h

/-- At any other place than `lock` and `condUnlock`, a step can leave the queues alone. -/
theorem touch_next_quiet (hlock : (k.pc k.cpu).locks = none)
    (hunlock : ∀ r, k.pc k.cpu ≠ .condUnlock r) (hr : k'.resources = k.resources)
    (hc : k'.condvars = k.condvars) : Touch k (.next n) k'.resources k'.condvars := by
  refine touch_of_eq (.quiet (fun r => ?_) (fun _ => releases_next hunlock) ?_) hr hc
  · rw [acquires, hlock]
    rfl
  · rw [enters, hlock]

theorem waitStep_frame (k : Kernel) (target : Target) :
    (k.waitStep target).1.resources = k.resources ∧ (k.waitStep target).1.condvars = k.condvars := by
  unfold waitStep
  split
  · exact ⟨rfl, rfl⟩
  · split <;> exact ⟨rfl, rfl⟩

theorem touch_broadcast (hpc : k.pc k.cpu = .broadcast r) {done : Pc} :
    Touch k (.next n) (k.signalStep r p done).1.resources (k.signalStep r p done).1.condvars := by
  unfold signalStep
  dsimp only
  split
  · have hquiet : Touch k (.next n) (k.goto done).resources (k.goto done).condvars :=
      touch_next_quiet (by rw [hpc]; rfl) (by simp [hpc]) rfl rfl
    exact hquiet
  next t ts hcons =>
    have hframe := unblockTid_frame { k with
      resources := update k.resources r { k.resources r with condWaiters := ts } } t
    exact touch_of_eq (.broadcast hpc hcons) hframe.1 hframe.2.1

theorem touch_next (h : k.next n = some (k', es)) : Touch k (.next n) k'.resources k'.condvars := by
  have hnext := next_inv h
  generalize hpc : k.pc k.cpu = place at hnext
  -- the places that are neither `lock` nor `condUnlock`
  have hquiet : place.locks = none → (∀ r, place ≠ .condUnlock r) →
      k'.resources = k.resources → k'.condvars = k.condvars →
      Touch k (.next n) k'.resources k'.condvars := by
    subst hpc
    exact touch_next_quiet
  cases hnext with
  | lock r | condLock r => exact touch_lockStep (by rw [hpc]; rfl)
  | condUnlock r =>
    dsimp only [unlockStep]
    split <;> exact .condUnlock hpc
  | broadcast r => exact touch_broadcast hpc
  | condMark | waitMark =>
    exact hquiet rfl (by simp) (k.markBlocked_frame _).1 (k.markBlocked_frame _).2.1
  | wait target =>
    exact hquiet rfl (by simp) (k.waitStep_frame target).1 (k.waitStep_frame target).2
  | exitWake | exitAlone | exitRemove | spawnPush | scheduleLater | schedule | cvReturn =>
    exact hquiet rfl (by simp) rfl rfl
  | wake t =>
    exact hquiet rfl (by simp) (k.unblockTid_frame t).1 (k.unblockTid_frame t).2.1
  | prepare next hdispatch =>
    obtain ⟨hr, hc, _⟩ := dispatch_frame hdispatch
    exact hquiet rfl (by simp) hr hc

/-- **What a step does to the queues.** -/
theorem step_touch (h : k.step op = some (k', es)) : Touch k op k'.resources k'.condvars := by
  cases op with
  | timer n =>
    obtain ⟨hr, hc, _⟩ := timer_frame (timer_of_step h)
    exact touch_of_eq (.quiet (fun _ => rfl) (fun _ => rfl) rfl) hr hc
  | call c =>
    obtain ⟨_, rfl, _⟩ := call_of_step h
    exact touch_call
  | next n => exact touch_next h

/-! ## The mutexes -/

section

variable {α β γ : Type} [DecidableEq α] {g : α → β} {a b : α} {x : β}

theorem map_update (f : β → γ) :
    f (update g a x b) = if a = b then f x else f (g b) := by
  by_cases hab : a = b
  · rw [if_pos hab, hab, update_self]
  · rw [if_neg hab, update_of_ne (Ne.symm hab)]

/-- A change that `f` does not see. -/
theorem map_update_same (f : β → γ) (hx : f x = f (g a)) : f (update g a x b) = f (g b) := by
  rw [map_update f, hx]
  split
  next hab => rw [hab]
  · rfl

/-- A change by which a list only loses entries. -/
theorem sublist_update (f : β → List γ) (hx : (f x).Sublist (f (g a))) :
    (f (update g a x b)).Sublist (f (g b)) := by
  rw [map_update f]
  split
  next hab => exact hab ▸ hx
  · exact List.Sublist.refl _

/-- A change by which a list gets one more. -/
theorem snoc_update (f : β → List γ) {t : γ} (hx : f x = f (g a) ++ [t]) {P : Prop} (hP : a = b → P) :
    (P ∧ f (update g a x b) = f (g b) ++ [t]) ∨
      (f (update g a x b)).Sublist (f (g b)) := by
  rw [map_update f]
  split
  next hab => exact .inl ⟨hP hab, hab ▸ hx⟩
  · exact .inr (List.Sublist.refl _)

end

variable {res : Nat → Resource} {cvs : Nat → List Nat}

/-- The flag of a mutex is set and cleared by the steps that take it and give it back. -/
theorem Touch.locked (h : Touch k op res cvs) (r : Nat) :
    (res r).locked =
      if k.acquires r op then true else if k.releases r op then false else (k.resources r).locked := by
  cases h with
  | quiet ha hr =>
    rw [ha r, hr r]
    rfl
  | cvPark | cvSignal | cvBroadcast => rfl
  | tryLock hfree =>
    rw [map_update locked]
    split
    next hr => simp [acquires, ← hr, hfree]
    next hr => simp [acquires, releases, hr]
  | lock hpc hfree =>
    rw [map_update locked]
    split
    next hr => simp [acquires, hpc, ← hr, hfree]
    next hr => simp [acquires, releases_of_locks hpc, hpc, hr]
  | @park n r' hpc hlocked =>
    refine (map_update_same locked (by rfl)).trans ?_
    by_cases hr : r' = r
    · simp [releases_of_locks hpc, ← hr, hlocked]
    · simp [acquires, releases_of_locks hpc, hpc, hr]
  | unlock =>
    rw [map_update locked]
    split <;> simp_all [acquires, releases]
  | condUnlock hpc =>
    rw [map_update locked]
    split <;> simp_all [acquires, releases, Pc.locks]
  | condPark | signal => exact map_update_same locked (by rfl)
  | broadcast hpc =>
    refine (map_update_same locked (by rfl)).trans ?_
    simp [acquires, releases, hpc, Pc.locks]

/-- Who takes a mutex finds it free. -/
theorem free_of_acquires (h : k.acquires r op = true) : (k.resources r).locked = false := by
  have hfree : ∀ {b : Bool}, (b && !(k.resources r).locked) = true →
      (k.resources r).locked = false := by
    intro b h
    simpa using (Bool.and_eq_true_iff.mp h).2
  unfold acquires at h
  split at h
  · exact hfree h
  · exact hfree h
  · cases h

theorem releases_inv (h : k.releases r op = true) :
    op = .call (.unlock r) ∨ k.pc k.cpu = .condUnlock r := by
  unfold releases at h
  split at h
  · refine .inl ?_
    rw [beq_iff_eq.mp h]
  · split at h
    next hpc =>
      refine .inr ?_
      rw [hpc, beq_iff_eq.mp h]
    · cases h
  · cases h

/-- Such a step is the locked part of `unlock`. -/
theorem step_releases (h : k.releases r op = true) (hstep : k.step op = some (k', es)) :
    ∃ next, k' = k.unlockStep r next := by
  rcases releases_inv h with rfl | hpc
  · obtain ⟨_, rfl, _⟩ := call_of_step hstep
    exact ⟨.run, rfl⟩
  · cases op with
    | timer => exact absurd h (by simp [releases])
    | call c => cases hpc.symm.trans (call_of_step hstep).1
    | next n =>
      have hnext := next_inv hstep
      rw [hpc] at hnext
      cases hnext
      exact ⟨_, rfl⟩

/-- With somebody waiting, the wake-up is next. -/
theorem unlockStep_cons {ts : List Nat} (hw : (k.resources r).waiters = t :: ts) :
    ((k.unlockStep r p).resources r).waiters = ts ∧
      (k.unlockStep r p).pc (k.unlockStep r p).cpu = .wake t p := by
  unfold unlockStep
  simp only [hw]
  refine ⟨?_, update_self ..⟩
  show (update k.resources r _ r).waiters = ts
  rw [update_self]
  rfl

theorem step_wake (hpc : k.pc k.cpu = .wake t p) :
    k.step (.next n) = some ((k.unblockTid t).1.goto p, (k.unblockTid t).2) := by
  unfold step next
  rw [hpc]

/-! ## The queues -/

/-- The running task joins the queue of the wait it begins; otherwise a queue only
loses entries. -/
theorem Touch.queue (h : Touch k op res cvs) (w : Wait) :
    (k.enters op = some w ∧ queueOf res cvs w = k.queue w ++ [k.cpu]) ∨
      (queueOf res cvs w).Sublist (k.queue w) := by
  cases w with
  | mutex r =>
    cases h with
    | quiet | cvPark | cvSignal | cvBroadcast => exact .inr (List.Sublist.refl _)
    | tryLock | lock | condPark | signal | broadcast =>
      exact .inr (sublist_update waiters (List.Sublist.refl _))
    -- The first waiter is popped.
    | unlock | condUnlock => exact .inr (sublist_update waiters (List.tail_sublist _))
    | park hpc hlocked =>
      refine snoc_update waiters (by rfl) fun hr => ?_
      simp [enters, hpc, hlocked, ← hr]
  | cond r =>
    cases h with
    | quiet | cvPark | cvSignal | cvBroadcast => exact .inr (List.Sublist.refl _)
    | tryLock | lock | park | unlock | condUnlock =>
      exact .inr (sublist_update condWaiters (List.Sublist.refl _))
    | signal hcons | broadcast _ hcons =>
      exact .inr (sublist_update condWaiters (hcons ▸ List.sublist_cons_self _ _))
    | condPark => exact snoc_update condWaiters (by rfl) fun hr => hr ▸ rfl
  | condvar c =>
    cases h with
    | quiet | tryLock | lock | park | unlock | condUnlock | condPark | signal | broadcast =>
      exact .inr (List.Sublist.refl _)
    | cvSignal hcons => exact .inr (sublist_update id (hcons ▸ List.sublist_cons_self _ _))
    | cvBroadcast => exact .inr (sublist_update id (List.nil_sublist _))
    | cvPark => exact snoc_update id (by rfl) fun hc => hc ▸ rfl

end Kernel

end AlaphiOS.Sched
