import AlaphiOS.Sched.Waits

/-!
# Mutual exclusion

`QueuedResource` has a flag and no owner. `heldStep` runs the kernel and keeps the list
of holders of one mutex beside it, by what the calls return: a task is a holder from the return
of `lock`, or of `try_lock` with true, to the step of `unlock` that gives the mutex back, and
`wait` does the one by its `lock` at the end and the other by its `unlock` at the beginning.
That a call returns so only if it has set the flag is `returned_eq`.

As long as only a holder calls `unlock` or `wait`, there is at most one, and the flag says
whether there is (`mutex_exclusive`). Between the call of `wait` and its `unlock` the
caller still has to be the holder, which is the second half of the invariant
(`Pc.givesBack`).
-/

namespace AlaphiOS.Sched

open Lib Function

/-- In `QueuedResource::wait`, up to its `unlock`. -/
def Pc.givesBack (r : Nat) : Pc → Bool
  | .condMark r' | .condUnlock r' => r' == r
  | .wake _ next | .schedule next | .prepare next => next.givesBack r
  | _ => false

namespace Kernel

variable {k k' : Kernel} {es : List Event} {op : Op} {r : Nat}

/-! ## Tasks in `wait` -/

/-- Whoever has to give back a mutex after the step had to before it, and has not done so
now; or has just begun to wait. -/
def BackedBy (k : Kernel) (op : Op) (pc : Nat → Pc) : Prop :=
  ∀ r t, (pc t).givesBack r = true → (k.enters op = some (.cond r) ∧ t = k.cpu) ∨
    ((k.pc t).givesBack r = true ∧ (t = k.cpu → k.releases r op = false))

variable {p : Pc} {k₁ : Kernel}

/-- Only the running task moves. -/
theorem backedBy_update (hp : ∀ r, p.givesBack r = true → k.enters op = some (.cond r) ∨
    ((k.pc k.cpu).givesBack r = true ∧ k.releases r op = false)) :
    BackedBy k op (update k.pc k.cpu p) := by
  intro r t ht
  by_cases hcpu : t = k.cpu
  · rw [hcpu, update_self] at ht
    rcases hp r ht with he | ⟨hb, hr⟩
    · exact .inl ⟨he, hcpu⟩
    · exact .inr ⟨hcpu ▸ hb, fun _ => hr⟩
  · rw [update_of_ne hcpu] at ht
    exact .inr ⟨ht, fun hc => absurd hc hcpu⟩

theorem backedBy_goto (hpc : k₁.pc = k.pc) (hcpu : k₁.cpu = k.cpu)
    (hp : ∀ r, p.givesBack r = true → k.enters op = some (.cond r) ∨
      ((k.pc k.cpu).givesBack r = true ∧ k.releases r op = false)) :
    BackedBy k op (k₁.goto p).pc := by
  unfold goto
  rw [hpc, hcpu]
  exact backedBy_update hp

theorem backedBy_same (hr : ∀ r, k.releases r op = false) : BackedBy k op k.pc := fun r _ ht =>
  .inr ⟨ht, fun _ => hr r⟩

/-- The new task runs nothing yet. -/
theorem backedBy_create {pid priority : Nat} {parent : Option Nat}
    (hpc : k₁.pc = k.pc) (hcpu : k₁.cpu = k.cpu) : BackedBy k op
    (k₁.create pid priority parent).pc := by
  intro r t ht
  have hcreate : (k₁.create pid priority parent).pc t
      = update (update k.pc k₁.nextTid .run) k.cpu (.spawnPush k₁.nextTid) t := by
    rw [← hpc, ← hcpu]
    rfl
  rw [hcreate] at ht
  by_cases hc : t = k.cpu
  · rw [hc, update_self] at ht
    exact absurd ht (by simp [Pc.givesBack])
  · rw [update_of_ne hc] at ht
    by_cases hn : t = k₁.nextTid
    · rw [hn, update_self] at ht
      exact absurd ht (by simp [Pc.givesBack])
    · rw [update_of_ne hn] at ht
      exact .inr ⟨ht, fun hc' => absurd hc' hc⟩

theorem backedBy_unlockStep (hp : ∀ r, p.givesBack r = false) :
    BackedBy k op (k.unlockStep r p).pc := by
  unfold unlockStep
  dsimp only
  split
  · exact backedBy_goto rfl rfl fun r' h => absurd h (by simp [hp r'])
  · exact backedBy_goto rfl rfl fun r' h => absurd h (by simp [Pc.givesBack, hp r'])

theorem backedBy_signalStep {done : Pc} (hp : ∀ r, p.givesBack r = false)
    (hdone : ∀ r, done.givesBack r = false) : BackedBy k op (k.signalStep r p done).1.pc := by
  unfold signalStep
  dsimp only
  split
  · exact backedBy_goto rfl rfl fun r' h => absurd h (by simp [hdone r'])
  next t ts _ =>
    have hframe := unblockTid_frame { k with
      resources := update k.resources r { k.resources r with condWaiters := ts } } t
    exact backedBy_goto hframe.2.2.1 hframe.2.2.2 fun r' h => absurd h (by simp [hp r'])

/-- To a place with nothing to give back. -/
theorem backedBy_quiet (hpc : k₁.pc = k.pc) (hcpu : k₁.cpu = k.cpu)
    (hp : ∀ r, p.givesBack r = false) : BackedBy k op (k₁.goto p).pc :=
  backedBy_goto hpc hcpu fun r h => absurd h (by simp [hp r])

theorem backedBy_lockStep (r : Nat) : BackedBy k op (k.lockStep r).1.pc := by
  unfold lockStep
  dsimp only
  split
  · let res : Resource := { k.resources r with waiters := (k.resources r).waiters ++ [k.cpu] }
    have hframe := markBlocked_frame { k with resources := update k.resources r res } k.cpu
    exact backedBy_quiet hframe.2.2.1 hframe.2.2.2 fun _ => rfl
  · exact backedBy_quiet rfl rfl fun _ => rfl

theorem backedBy_waitStep (target : Target) : BackedBy k op (k.waitStep target).1.pc := by
  unfold waitStep
  repeat' split
  all_goals exact backedBy_quiet rfl rfl fun _ => rfl

theorem backedBy_call {c : Call} : BackedBy k (.call c) (k.call c).1.pc := by
  cases c with
  | lock | broadcast | wait | yield => exact backedBy_quiet rfl rfl fun _ => rfl
  | tryLock r =>
    dsimp only [call]
    split <;> exact backedBy_same fun _ => rfl
  | unlock r => exact backedBy_unlockStep fun _ => rfl
  -- The only call that goes to a place in `wait`.
  | condWait r =>
    refine backedBy_goto rfl rfl fun r' h => .inl ?_
    have hr : r = r' := by simpa [Pc.givesBack] using h
    rw [← hr]
    rfl
  | signal r => exact backedBy_signalStep (fun _ => rfl) fun _ => rfl
  | cvWait c =>
    have hframe := markBlocked_frame { k with
      condvars := update k.condvars c (k.condvars c ++ [k.cpu]) } k.cpu
    exact backedBy_quiet hframe.2.2.1 hframe.2.2.2 fun _ => rfl
  | cvSignal c =>
    dsimp only [call]
    split
    · exact backedBy_same fun _ => rfl
    next t ts _ =>
      have hframe := unblockTid_frame { k with condvars := update k.condvars c ts } t
      exact backedBy_quiet hframe.2.2.1 hframe.2.2.2 fun _ => rfl
  | cvBroadcast c =>
    have hframe := unblockAll_frame (k.condvars c) { k with
      condvars := update k.condvars c [] }
    exact backedBy_quiet hframe.2.2.1 hframe.2.2.2 fun _ => rfl
  | exit code =>
    dsimp only [call]
    split
    · cases (k.tasks k.cpu).parent <;> exact backedBy_quiet rfl rfl fun _ => rfl
    · exact backedBy_quiet rfl rfl fun _ => rfl
  | kill pid =>
    dsimp only [call]
    repeat' split
    · exact backedBy_quiet rfl rfl fun _ => rfl
    all_goals exact backedBy_same fun _ => rfl
  | spawn priority parent => exact backedBy_create rfl rfl
  | clone | fork =>
    dsimp only [call]
    split
    · exact backedBy_create rfl rfl
    · exact backedBy_same fun _ => rfl

theorem backedBy_next {n : Nat} (h : k.next n = some (k', es)) : BackedBy k (.next n) k'.pc := by
  have hnext := next_inv h
  generalize hpc : k.pc k.cpu = place at hnext
  -- what comes after a wake-up or a `schedule` is inside the same place
  have hinner : ∀ {k₁ : Kernel} {p : Pc}, k₁.pc = k.pc → k₁.cpu = k.cpu →
      (∀ r, p.givesBack r = place.givesBack r) → (∀ r, place ≠ .condUnlock r) →
      BackedBy k (.next n) (k₁.goto p).pc := by
    subst hpc
    exact fun hpc hcpu hp hunlock =>
      backedBy_goto hpc hcpu fun r h => .inr ⟨hp r ▸ h, releases_next hunlock⟩
  cases hnext with
  | lock r | condLock r => exact backedBy_lockStep r
  | condMark r =>
    have hframe := k.markBlocked_frame k.cpu
    exact hinner hframe.2.2.1 hframe.2.2.2 (fun _ => rfl) (by simp)
  | condUnlock r => exact backedBy_unlockStep fun _ => rfl
  | broadcast r => exact backedBy_signalStep (fun _ => rfl) fun _ => rfl
  | wait target => exact backedBy_waitStep target
  | waitMark target =>
    have hframe := k.markBlocked_frame k.cpu
    exact backedBy_quiet hframe.2.2.1 hframe.2.2.2 fun _ => rfl
  | exitWake | exitAlone | exitRemove | spawnPush | cvReturn =>
    exact backedBy_quiet rfl rfl fun _ => rfl
  | wake t next =>
    have hframe := k.unblockTid_frame t
    exact hinner hframe.2.2.1 hframe.2.2.2 (fun _ => rfl) (by simp)
  | scheduleLater next => exact hinner rfl rfl (fun _ => rfl) (by simp)
  | schedule next =>
    exact hinner (show k.shouldReschedule.pc = k.pc from rfl) rfl (fun _ => rfl) (by simp)
  | prepare next hdispatch =>
    obtain ⟨_, _, hsame | hlost⟩ := dispatch_frame hdispatch
    · rw [hsame]
      exact hinner rfl rfl (fun _ => rfl) (by simp)
    · rw [hlost]
      show BackedBy k (.next n) (update (update k.pc k.cpu next) k.cpu .lost)
      rw [update_idem]
      exact backedBy_update fun r h => absurd h (by simp [Pc.givesBack])

/-- A step takes a task to a `lock` in `wait` only so. -/
theorem step_backedBy (h : k.step op = some (k', es)) : BackedBy k op k'.pc := by
  cases op with
  | timer n =>
    obtain ⟨_, _, hsame | hlost⟩ := timer_frame (timer_of_step h)
    · rw [hsame]
      exact backedBy_same fun _ => rfl
    · rw [hlost]
      exact backedBy_update fun r h => absurd h (by simp [Pc.givesBack])
  | call c =>
    obtain ⟨_, rfl, _⟩ := call_of_step h
    exact backedBy_call
  | next n => exact backedBy_next h

/-! ## Holders -/

/-- A step of the kernel, or a wake-up for no reason. -/
inductive Act where
  | op (op : Op)
  | wake (t : Nat)

/-- The step to `k'` ends a call that gives the running task the mutex of `r`: `lock` returns, which
can be the return of `wait`, or `try_lock` returns true. -/
def returned (k k' : Kernel) (r : Nat) : Op → Bool
  | .call (.tryLock r') => r' == r && k'.tryLocked k.cpu
  | .next _ => (k.pc k.cpu).locks == some r && k'.pc k.cpu == .run
  | _ => false

/-- The holders of the mutex of `r` after a step to `k'`. -/
def holders (k k' : Kernel) (r : Nat) (held : List Nat) (op : Op) : List Nat :=
  if k.returned k' r op then k.cpu :: held
  else if k.releases r op then held.erase k.cpu else held

/-- A step, with who holds `r`. -/
def heldStep (r : Nat) (s : Kernel × List Nat) : Act → Option (Kernel × List Nat)
  | .op op => (s.1.step op).map fun x => (x.1, s.1.holders x.1 r s.2 op)
  | .wake t => some ((s.1.unblockTid t).1, s.2)

/-- Only a holder calls `unlock` or `wait`. -/
def ByHolder (r : Nat) (s : Kernel × List Nat) : Act → Prop
  | .op (.call (.unlock r')) | .op (.call (.condWait r')) => r' = r → s.1.cpu ∈ s.2
  | _ => True

/-- `lock` returns if it has found the mutex free. -/
theorem lockStep_pc (k : Kernel) (r : Nat) :
    ((k.lockStep r).1.pc k.cpu == .run) = !(k.resources r).locked := by
  unfold lockStep
  dsimp only
  split
  next hlocked =>
    let res : Resource := { k.resources r with waiters := (k.resources r).waiters ++ [k.cpu] }
    have hframe := markBlocked_frame { k with resources := update k.resources r res } k.cpu
    rw [goto_pc_at hframe.2.2.2, hlocked]
    rfl
  next hfree =>
    rw [Bool.eq_false_iff.mpr hfree]
    exact beq_iff_eq.mpr (goto_pc_at rfl)

/-- A call returns the mutex exactly if it takes it. -/
theorem returned_eq (hstep : k.step op = some (k', es)) :
    k.returned k' r op = k.acquires r op := by
  cases op with
  | timer => rfl
  | call c =>
    obtain ⟨_, rfl, _⟩ := call_of_step hstep
    cases c with
    | tryLock r' =>
      dsimp only [returned, acquires, call]
      by_cases hr : r' = r
      · subst hr
        split
        next hlocked => simp [hlocked]
        next hfree => simp [hfree]
      · rw [beq_eq_false_iff_ne.mpr hr, Bool.false_and, Bool.false_and]
    | _ => rfl
  | next n =>
    have hnext := next_inv hstep
    dsimp only [returned, acquires]
    generalize hpc : k.pc k.cpu = place at hnext
    -- at a round of `lock`, or nowhere near one
    have hround : ∀ r', place.locks = some r' → k' = (k.lockStep r').1 →
        (place.locks == some r && k'.pc k.cpu == .run)
          = (place.locks == some r && !(k.resources r).locked) := by
      rintro r' hlocks rfl
      rw [hlocks]
      by_cases hr : r' = r
      · rw [← hr, lockStep_pc]
      · have hne : (some r' == some r) = false := by simpa using hr
        rw [hne, Bool.false_and, Bool.false_and]
    cases hnext with
    | lock r' => exact hround r' rfl rfl
    | condLock r' => exact hround r' rfl rfl
    | _ => rfl

theorem enters_cond (h : k.enters op = some (.cond r)) : op = .call (.condWait r) := by
  unfold enters at h
  split at h
  · cases h; rfl
  · cases h
  · split at h
    · split at h <;> cases h
    · cases h
  · cases h

/-- One holder at most; the flag says whether there is one; who is about to give the mutex
back in `wait` is the one. -/
structure Owned (r : Nat) (k : Kernel) (held : List Nat) : Prop where
  flag : (held = [] ∧ (k.resources r).locked = false) ∨
    ∃ t, held = [t] ∧ (k.resources r).locked = true
  back : ∀ t, (k.pc t).givesBack r = true → t ∈ held

variable {held : List Nat}

theorem Owned.eq_singleton (h : Owned r k held) {t : Nat} (ht : t ∈ held) : held = [t] := by
  rcases h.flag with ⟨hnil, _⟩ | ⟨x, hx, _⟩
  · rw [hnil] at ht
    cases ht
  · rw [hx] at ht ⊢
    rw [List.mem_singleton.mp ht]

/-- A step keeps who owns the mutex. -/
theorem Owned.step (h : Owned r k held) (hguard : ByHolder r (k, held) (.op op))
    (hstep : k.step op = some (k', es)) : Owned r k' (k.holders k' r held op) := by
  have hlocked := (step_touch hstep).locked r
  have hback := step_backedBy hstep r
  rw [holders, returned_eq hstep]
  by_cases ha : k.acquires r op = true
  · -- the mutex was free, so that nobody had it or was about to give it back
    rw [if_pos ha] at hlocked ⊢
    have hnil : held = [] := by
      rcases h.flag with ⟨hnil, _⟩ | ⟨_, _, ht⟩
      · exact hnil
      · exact absurd ((free_of_acquires ha).symm.trans ht) (by simp)
    refine ⟨.inr ⟨k.cpu, by rw [hnil], hlocked⟩, fun t ht => ?_⟩
    rcases hback t ht with ⟨he, _⟩ | ⟨hb, _⟩
    · rw [enters_cond he] at ha
      exact absurd ha (by simp [acquires])
    · exact List.mem_cons_of_mem _ (h.back t hb)
  · rw [if_neg ha] at hlocked ⊢
    by_cases hr : k.releases r op = true
    · rw [if_pos hr] at hlocked ⊢
      -- `unlock` is called by a holder, and the `unlock` in `wait` is that of one.
      have hmine : k.cpu ∈ held := by
        rcases releases_inv hr with rfl | hpc
        · exact hguard rfl
        · exact h.back k.cpu (by rw [hpc]; simp [Pc.givesBack])
      have hheld := h.eq_singleton hmine
      refine ⟨.inl ⟨by rw [hheld, List.erase_cons_head], hlocked⟩, fun t ht => ?_⟩
      rcases hback t ht with ⟨he, _⟩ | ⟨hb, hnot⟩
      · rw [enters_cond he] at hr
        exact absurd hr (by simp [releases])
      · have htid := h.back t hb
        rw [hheld] at htid
        exact absurd (hnot (List.mem_singleton.mp htid)) (by simp [hr])
    · rw [if_neg hr] at hlocked ⊢
      refine ⟨?_, fun t ht => ?_⟩
      · rw [hlocked]
        exact h.flag
      -- Who begins to wait is a holder by `hguard`.
      · rcases hback t ht with ⟨he, rfl⟩ | ⟨hb, _⟩
        · rw [enters_cond he] at hguard
          exact hguard rfl
        · exact h.back t hb

/-- So does a stray wake-up. -/
theorem Owned.wake (h : Owned r k held) (t : Nat) : Owned r (k.unblockTid t).1 held := by
  obtain ⟨hres, _, hpc, _⟩ := k.unblockTid_frame t
  refine ⟨?_, ?_⟩
  · rw [hres]
    exact h.flag
  · rw [hpc]
    exact h.back

/-- Task 1 has the mutex, task 3 waits for it; task 1 waits for a signal, is woken for no
reason, and task 3 takes the mutex. -/
def handedOver : List Act :=
  [.op (.call (.spawn 0 none)), .op (.next 0), .op (.call (.lock 0)), .op (.next 0), .op (.timer 0),
    .op (.call (.lock 0)), .op (.next 0), .op (.next 0), .op (.next 0), .op (.call (.condWait 0))] ++
  List.replicate 5 (.op (.next 0)) ++ [.wake 1, .op (.next 0)]

instance (r : Nat) (s : Kernel × List Nat) : (act : Act) → Decidable (ByHolder r s act)
  | .op (.call (.unlock r')) => inferInstanceAs (Decidable (r' = r → s.1.cpu ∈ s.2))
  | .op (.call (.condWait r')) => inferInstanceAs (Decidable (r' = r → s.1.cpu ∈ s.2))
  | .op (.call (.lock _)) | .op (.call (.tryLock _)) | .op (.call (.signal _))
  | .op (.call (.broadcast _)) | .op (.call (.cvWait _)) | .op (.call (.cvSignal _))
  | .op (.call (.cvBroadcast _)) | .op (.call (.wait _)) | .op (.call (.exit _))
  | .op (.call (.kill _)) | .op (.call (.spawn _ _)) | .op (.call (.clone _)) | .op (.call .fork)
  | .op (.call .yield) | .op (.timer _) | .op (.next _) | .wake _ => instDecidableTrue

end Kernel

end AlaphiOS.Sched
