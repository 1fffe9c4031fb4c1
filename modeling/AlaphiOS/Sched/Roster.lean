import AlaphiOS.Lib.Trace
import AlaphiOS.Sched.Kernel

/-!
# Who runs, who waits

The abstract side of `Kernel`: a `Roster` has the state of every task, the
tasks that are queued (as a multiset: in which queue and in which order does not
matter here), the current task and where each task is in its code. Priorities,
time slices, wait queues and mutexes are gone.

`Move` lists what one step of the kernel can do to a roster, eleven cases
instead of some thirty steps, and `step_move` says that this is all. Every
invariant of the scheduler is proved about moves.
-/

namespace AlaphiOS.Sched

open Lib Function MlfqScheduler

/-- The parts of a task's life. -/
inductive Phase where
  | live
  /-- In `exit`, before `remove_current`. -/
  | exiting
  /-- In `exit`, after `remove_current`. -/
  | ended
  | lost
  deriving DecidableEq

/-- The phase of a point. -/
def Pc.phase : Pc → Phase
  | .run | .lock _ | .condMark _ | .condUnlock _ | .condLock _ | .cvReturn _ | .broadcast _
  | .wait _ | .waitMark _ | .spawnPush _ => .live
  | .exitWake _ | .exitRemove => .exiting
  | .halt => .ended
  | .lost => .lost
  | .wake _ next | .schedule next | .prepare next => next.phase

/-- The task that is in the table but not yet pushed by this `spawn`. -/
def Pc.spawns : Pc → Option Nat
  | .spawnPush t => some t
  | .wake _ next | .schedule next | .prepare next => next.spawns
  | _ => none

/-- The two agree in everything a roster looks at. -/
def Pc.Like (p q : Pc) : Prop := p.phase = q.phase ∧ p.spawns = q.spawns

/-- What the scheduler knows of the tasks. -/
structure Roster where
  state : Nat → TaskState
  code : Nat → Option Int
  listed : Nat → Bool
  created : Nat
  queued : Multiset Nat
  current : Option Nat
  cpu : Nat
  pc : Nat → Pc

/-- Forget the rest. -/
def Kernel.roster (k : Kernel) : Roster where
  state t := (k.tasks t).state
  code t := (k.tasks t).exitCode
  listed := k.inTable
  created := k.nextTid
  queued := k.sched.queued
  current := k.sched.current
  cpu := k.cpu
  pc := k.pc

namespace Roster

/-- The running task goes on at `p`. -/
def goto (r : Roster) (p : Pc) : Roster := { r with pc := update r.pc r.cpu p }

/-- `unblock_tid`. -/
def unblock (r : Roster) (t : Nat) : Roster × List Event :=
  if r.listed t = true ∧ r.state t = .blocked then
    ({ r with state := update r.state t .ready, queued := t ::ₘ r.queued },
      [.unblocked t, .enqueued t])
  else (r, [.unblocked t])

/-- `unblock_tid` of each. -/
def unblockAll (r : Roster) : List Nat → Roster × List Event
  | [] => (r, [])
  | t :: ts =>
    let (r, es) := r.unblock t
    let (r, es') := r.unblockAll ts
    (r, es ++ es')

/-- A new task, which the running one is to push. -/
def create (r : Roster) : Roster :=
  { r with
    state := update r.state r.created .ready
    code := update r.code r.created none
    listed := update r.listed r.created true
    pc := update (update r.pc r.created .run) r.cpu (.spawnPush r.created)
    created := r.created + 1 }

end Roster

/-- The entry points of the scheduler that a step calls. -/
structure Entries where
  /-- `unblock_tid`, on these tasks. -/
  wakes : List Nat
  /-- `prepare_switch`. -/
  switches : Prop
  /-- `exit`. -/
  exits : Prop
  /-- `remove_current`. -/
  removes : Prop

/-- What one step can do, with the events it reports. -/
inductive Move (c : Entries) (r : Roster) : List Event → Roster → Prop
  /-- Nothing but wake-ups. -/
  | wake {p : Pc} (hp : p.Like (r.pc r.cpu)) :
      Move c r (r.unblockAll c.wakes).2 ((r.unblockAll c.wakes).1.goto p)
  | block {p : Pc} (hlisted : r.listed r.cpu = true) (hlive : (r.pc r.cpu).phase = .live)
      (hp : p.Like (r.pc r.cpu)) :
      Move c r [.blocked r.cpu]
        ({ r with state := update r.state r.cpu .blocked }.goto p)
  /-- The current task makes room for a queued one. -/
  | swap {out incoming : Nat} {rest : Multiset Nat} {p : Pc} (hswitch : c.switches)
      (hout : r.current = some out) (hq : r.queued = incoming ::ₘ rest)
      (hp : p.Like (r.pc r.cpu)) :
      Move c r [.enqueued out, .dispatched incoming]
        { r with
          state := update (update r.state out .ready) incoming .running
          queued := out ::ₘ rest
          current := some incoming
          cpu := incoming
          pc := update r.pc r.cpu p }
  /-- There is no current task, and a queued one is taken. -/
  | take {incoming : Nat} {rest : Multiset Nat} (hout : r.current = none)
      (hq : r.queued = incoming ::ₘ rest) :
      Move c r [.dispatched incoming]
        { r with
          state := update r.state incoming .running
          queued := rest
          current := some incoming
          cpu := incoming
          pc := update r.pc r.cpu .lost }
  | exit {code : Int} {p : Pc} (hexit : c.exits) (hlisted : r.listed r.cpu = true)
      (hrun : r.pc r.cpu = .run) (hp : p.phase = .exiting ∧ p.spawns = none) :
      Move c r [.exited r.cpu code]
        ({ r with
          state := update r.state r.cpu .zombie
          code := update r.code r.cpu (some code) }.goto p)
  /-- `exit` of a task that is not in the table. -/
  | leave (hlisted : r.listed r.cpu = false) (hrun : r.pc r.cpu = .run) :
      Move c r [] (r.goto .exitRemove)
  | remove (hremove : c.removes) (hpc : r.pc r.cpu = .exitRemove) :
      Move c r [] ({ r with current := none }.goto (.schedule .halt))
  | create (hrun : r.pc r.cpu = .run) : Move c r [] r.create
  | push {t : Nat} (hpc : r.pc r.cpu = .spawnPush t) :
      Move c r [.enqueued t] ({ r with queued := t ::ₘ r.queued }.goto .run)
  /-- `wait` finds a Zombie. -/
  | reap {t : Nat} {target : Target} (hpc : r.pc r.cpu = .wait target) (hlisted : r.listed t = true)
      (hz : r.state t = .zombie) :
      Move c r [.waited r.cpu (some t) ((r.code t).getD (-1))]
        ({ r with listed := update r.listed t false }.goto .run)
  /-- `wait` finds nobody. -/
  | miss {target : Target} (hpc : r.pc r.cpu = .wait target) :
      Move c r [.waited r.cpu none (-1)] (r.goto .run)

namespace Kernel

/-- The tasks a step calls `unblock_tid` on. -/
def wakes (k : Kernel) : Op → List Nat
  | .timer _ => []
  | .call (.signal r) => (k.resources r).condWaiters.head?.toList
  | .call (.cvSignal c) => (k.condvars c).head?.toList
  | .call (.cvBroadcast c) => k.condvars c
  | .call _ => []
  | .next _ =>
    match k.pc k.cpu with
    | .broadcast r => (k.resources r).condWaiters.head?.toList
    | .wake t _ => [t]
    | _ => []

/-- The step calls `prepare_switch`, with the flag up already if it does not
run `should_reschedule` first. -/
def switches (k : Kernel) : Op → Bool
  | .timer n => n == 0
  | .call _ => false
  | .next _ =>
    match k.pc k.cpu with
    | .prepare _ => k.sched.needsReschedule
    | _ => false

/-- The step begins `exit`. -/
def exits : Op → Bool
  | .call (.exit _) => true
  | _ => false

/-- The step calls `remove_current`. -/
def removes (k : Kernel) : Op → Bool
  | .next _ => k.pc k.cpu = .exitRemove
  | _ => false

/-- What an operation may do. -/
def entries (k : Kernel) (op : Op) : Entries :=
  ⟨k.wakes op, k.switches op = true, exits op = true, k.removes op = true⟩

/-! ## Every step is a move -/

variable {k k' : Kernel} {es : List Event} {t : Nat}

theorem states_update (ts : Tasks) (t : Nat) (task : Task) :
    (fun x => (update ts t task x).state)
      = update (fun x => (ts x).state) t task.state :=
  comp_update Task.state ts t task

theorem codes_update (ts : Tasks) (t : Nat) (task : Task) :
    (fun x => (update ts t task x).exitCode)
      = update (fun x => (ts x).exitCode) t task.exitCode :=
  comp_update Task.exitCode ts t task

/-- A change that keeps the exit code of a task keeps all of them. -/
theorem codes_update_same (ts : Tasks) (t : Nat) {task : Task}
    (h : task.exitCode = (ts t).exitCode) :
    (fun x => (update ts t task x).exitCode) = fun x => (ts x).exitCode := by
  rw [codes_update, h]
  exact update_eq_self t _

/-- Where the task is, is all that changes. -/
theorem roster_goto (p : Pc) : (k.goto p).roster = k.roster.goto p := rfl

theorem roster_relabelled {sched : MlfqScheduler} {tasks : Tasks}
    (hq : sched.queued = k.sched.queued) (hc : sched.current = k.sched.current)
    (ht : Relabelled k.tasks tasks) : { k with sched := sched, tasks := tasks }.roster = k.roster := by
  have hstate : (fun t => (tasks t).state) = fun t => (k.tasks t).state :=
    funext fun t => (ht t).2.1
  have hcode : (fun t => (tasks t).exitCode) = fun t => (k.tasks t).exitCode :=
    funext fun t => (ht t).2.2.2
  simp only [roster, hstate, hcode, hq, hc]

theorem roster_shouldReschedule : k.shouldReschedule.roster = k.roster := by
  refine roster_relabelled ?_ shouldReschedule_spec.2 (Relabelled.refl _)
  unfold queued
  rw [shouldReschedule_spec.1]

theorem roster_setState (k : Kernel) (t : Nat) (state : TaskState) :
    { k with tasks := update k.tasks t { k.tasks t with state := state } }.roster
      = { k.roster with state := update k.roster.state t state } := by
  simp only [roster, states_update, codes_update_same]

/-- `unblock_tid` is `unblock`. -/
theorem roster_unblockTid (k : Kernel) (t : Nat) :
    (k.unblockTid t).1.roster = (k.roster.unblock t).1 ∧
      (k.unblockTid t).2 = (k.roster.unblock t).2 := by
  unfold unblockTid Roster.unblock
  by_cases hb : k.inTable t = true ∧ (k.tasks t).state = .blocked
  · rw [if_pos hb, if_pos (show k.roster.listed t = true ∧ k.roster.state t = .blocked from hb)]
    simp only [roster, states_update, codes_update_same, push_queued,
      push_current, and_self]
  · rw [if_neg hb, if_neg (show ¬ (k.roster.listed t = true ∧ k.roster.state t = .blocked) from hb)]
    exact ⟨rfl, rfl⟩

theorem roster_unblockAll (ts : List Nat) (k : Kernel) :
    (k.unblockAll ts).1.roster = (k.roster.unblockAll ts).1 ∧
      (k.unblockAll ts).2 = (k.roster.unblockAll ts).2 := by
  induction ts generalizing k with
  | nil => exact ⟨rfl, rfl⟩
  | cons t ts ih =>
    obtain ⟨h₁, h₂⟩ := roster_unblockTid k t
    obtain ⟨h₃, h₄⟩ := ih (k.unblockTid t).1
    rw [h₁] at h₃ h₄
    exact ⟨h₃, congr (congrArg _ h₂) h₄⟩

section Moves

variable {sw ex rm : Prop} {p : Pc} {r : Nat} {target : Target}

theorem move_of_eq {ws : List Nat} {ro ro' : Roster} {es' : List Event}
    (hm : Move ⟨ws, sw, ex, rm⟩ ro es ro') (he : es' = es) (hr : k'.roster = ro') :
    Move ⟨ws, sw, ex, rm⟩ ro es' k'.roster := by
  rw [he, hr]
  exact hm

/-- A step that the roster does not see. -/
theorem move_quiet (hr : k'.roster = k.roster.goto p) (hp : p.Like (k.pc k.cpu)) :
    Move ⟨[], sw, ex, rm⟩ k.roster [] k'.roster := by
  rw [hr]
  exact .wake hp

/-- A step that leaves the roster alone. -/
theorem move_same (hr : k'.roster = k.roster) : Move ⟨[], sw, ex, rm⟩ k.roster [] k'.roster := by
  refine move_quiet (p := k.pc k.cpu) ?_ ⟨rfl, rfl⟩
  rw [hr]
  exact congrArg (fun pc => { k.roster with pc := pc }) (update_eq_self k.cpu k.pc).symm

/-- `unblock_tid` after a change the roster does not see. -/
theorem move_unblockTid (hr : k'.roster = k.roster) (hp : p.Like (k.pc k.cpu)) :
    Move ⟨[t], sw, ex, rm⟩ k.roster (k'.unblockTid t).2 ((k'.unblockTid t).1.goto p).roster := by
  obtain ⟨h₁, h₂⟩ := roster_unblockTid k' t
  rw [roster_goto, h₁, h₂, hr]
  have h : Move ⟨[t], sw, ex, rm⟩ k.roster ((k.roster.unblock t).2 ++ [])
      ((k.roster.unblock t).1.goto p) := .wake hp
  rwa [List.append_nil] at h

theorem move_unblockAll {ts : List Nat} (hr : k'.roster = k.roster) (hp : p.Like (k.pc k.cpu)) :
    Move ⟨ts, sw, ex, rm⟩ k.roster (k'.unblockAll ts).2 ((k'.unblockAll ts).1.goto p).roster := by
  obtain ⟨h₁, h₂⟩ := roster_unblockAll ts k'
  rw [roster_goto, h₁, h₂, hr]
  exact .wake hp

/-- `mark_blocked` on the running task, or nothing if it is not in the table. -/
theorem move_markBlocked (hr : k'.roster = k.roster) (hlive : (k.pc k.cpu).phase = .live)
    (hp : p.Like (k.pc k.cpu)) :
    Move ⟨[], sw, ex, rm⟩ k.roster (k'.markBlocked k.cpu).2
      ((k'.markBlocked k.cpu).1.goto p).roster := by
  have hlisted : k'.inTable = k.inTable := congrArg Roster.listed hr
  unfold markBlocked
  split
  next hin =>
    dsimp only
    rw [roster_goto, roster_setState, hr]
    rw [hlisted] at hin
    exact .block hin hlive hp
  · exact move_quiet (by rw [roster_goto, hr]) hp

/-- A round of `lock`. -/
theorem move_lockStep (hpc : k.pc k.cpu = .lock r ∨ k.pc k.cpu = .condLock r) :
    Move ⟨[], sw, ex, rm⟩ k.roster (k.lockStep r).2 (k.lockStep r).1.roster := by
  have hlike : Pc.Like .run (k.pc k.cpu) := by
    rcases hpc with h | h <;> rw [h] <;> exact ⟨rfl, rfl⟩
  unfold lockStep
  dsimp only
  split
  · exact move_markBlocked rfl hlike.1.symm hlike
  · exact move_quiet rfl hlike

theorem move_unlockStep (hp : p.Like (k.pc k.cpu)) :
    Move ⟨[], sw, ex, rm⟩ k.roster [] (k.unlockStep r p).roster := by
  unfold unlockStep
  dsimp only
  split <;> exact move_quiet rfl hp

theorem move_signalStep {done : Pc} (hp : p.Like (k.pc k.cpu)) (hdone : done.Like (k.pc k.cpu)) :
    Move ⟨(k.resources r).condWaiters.head?.toList, sw, ex, rm⟩ k.roster (k.signalStep r p done).2
      (k.signalStep r p done).1.roster := by
  unfold signalStep
  dsimp only
  split
  next hnil =>
    rw [hnil]
    exact move_quiet rfl hdone
  next t ts hcons =>
    rw [hcons]
    exact move_unblockTid rfl hp

theorem find_inTable (h : k.find target = some t) : k.inTable t = true := by
  unfold find at h
  split at h
  next p =>
    have hmem := List.mem_of_find?_eq_some h
    exact (List.mem_filter.mp hmem).2
  next x =>
    split at h
    next hin => exact Option.some.inj h ▸ hin
    · cases h

/-- A round of `wait`. -/
theorem move_waitStep (hpc : k.pc k.cpu = .wait target) :
    Move ⟨[], sw, ex, rm⟩ k.roster (k.waitStep target).2 (k.waitStep target).1.roster := by
  unfold waitStep
  split
  · exact .miss hpc
  next t hfind =>
    split
    next hz => exact .reap hpc (find_inTable hfind) hz
    · exact move_quiet rfl (by rw [hpc]; exact ⟨rfl, rfl⟩)

/-- `prepare_switch`, in a state whose roster is that of `k` with the running
task going on at `p`. -/
theorem move_dispatch {k₁ : Kernel} (hr : k₁.roster = k.roster.goto p) (hp : p.Like (k.pc k.cpu))
    (hsw : k₁.sched.needsReschedule = true → sw) (h : k₁.dispatch = some (k', es)) :
    Move ⟨[], sw, ex, rm⟩ k.roster es k'.roster := by
  obtain ⟨⟨pair, sched, tasks⟩, hprep, h⟩ := bind_inv h
  rcases prepareSwitch_spec hprep with ⟨rfl, hq, hc, rfl⟩ |
    ⟨hneeds, incoming, rest, rfl, hq, hc, hcase⟩
  · cases h
    refine move_quiet ?_ hp
    rw [← hr]
    exact roster_relabelled hq hc (Relabelled.refl _)
  · cases h
    -- the fields of `k₁` are those of `k` after `goto`
    have hcpu : k₁.cpu = k.cpu := congrArg Roster.cpu hr
    have hpc : k₁.pc = update k.pc k.cpu p := congrArg Roster.pc hr
    have hcur : k₁.sched.current = k.sched.current := congrArg Roster.current hr
    have hqueued : k₁.sched.queued = k.sched.queued := congrArg Roster.queued hr
    have hlisted : k₁.inTable = k.inTable := congrArg Roster.listed hr
    have hcreated : k₁.nextTid = k.nextTid := congrArg Roster.created hr
    have hstate : (fun t => (k₁.tasks t).state) = fun t => (k.tasks t).state :=
      congrArg Roster.state hr
    have hcode : (fun t => (k₁.tasks t).exitCode) = fun t => (k.tasks t).exitCode :=
      congrArg Roster.code hr
    rw [hcur] at hcase
    rw [hqueued] at hq
    rcases hcase with ⟨hnone, hq', rfl⟩ | ⟨out, prio, ts₁, hout, hq', rfl, rfl⟩
    · refine move_of_eq (.take hnone hq) (by rw [hcur, hnone]; rfl) ?_
      simp only [roster, switchTo, hcur, hnone, Option.isNone_none, if_true, hcpu, hpc,
        update_idem, states_update, codes_update_same, hstate, hcode, hlisted, hcreated,
        hq', hc]
    · refine move_of_eq (.swap (hsw hneeds) hout hq hp) (by rw [hcur, hout]; rfl) ?_
      simp only [roster, switchTo, hcur, hout, Option.isNone_some, Bool.false_eq_true, if_false,
        hpc, states_update, codes_update_same, hstate, hcode, hlisted, hcreated, hq', hc]

/-- The timer. -/
theorem move_timer {n : Nat} (hsw : n = 0 → sw) (h : k.timer n = some (k', es)) :
    Move ⟨[], sw, ex, rm⟩ k.roster es k'.roster := by
  obtain ⟨⟨sched, tasks⟩, htick, h⟩ := bind_inv h
  obtain ⟨hq, hc, hts⟩ := tick_spec htick
  have hr : { k with sched := sched, tasks := tasks }.roster = k.roster :=
    roster_relabelled hq hc hts
  dsimp only at h
  split at h
  · cases h
    exact move_same hr
  next hn =>
    refine move_dispatch (p := k.pc k.cpu) ?_ ⟨rfl, rfl⟩ (fun _ => hsw (by omega)) h
    rw [roster_shouldReschedule, hr]
    exact congrArg (fun pc => { k.roster with pc := pc }) (update_eq_self k.cpu k.pc).symm

/-- A new task. -/
theorem move_create {pid priority : Nat} {parent : Option Nat} (hr : k'.roster = k.roster)
    (hrun : k.pc k.cpu = .run) : Move ⟨[], sw, ex, rm⟩ k.roster []
    (k'.create pid priority parent).roster := by
  refine move_of_eq (.create hrun) rfl ?_
  rw [← hr]
  simp only [roster, create, Roster.create, states_update, codes_update]

/-- `exit`. -/
theorem move_exit {code : Int} {task : Task} (hexit : ex) (hin : k.inTable k.cpu = true)
    (hrun : k.pc k.cpu = .run) (hz : task.state = .zombie) (hcode : task.exitCode = some code)
    (hphase : p.phase = .exiting) (hspawns : p.spawns = none) :
    Move ⟨[], sw, ex, rm⟩ k.roster [.exited k.cpu code]
      (Kernel.goto { k with tasks := update k.tasks k.cpu task } p).roster := by
  refine move_of_eq (.exit hexit hin hrun ⟨hphase, hspawns⟩) rfl ?_
  rw [roster_goto]
  simp only [roster, states_update, codes_update, hz, hcode]

end Moves

/-- **Every first step of a call is a move.** -/
theorem move_call {c : Call} (hrun : k.pc k.cpu = .run) :
    Move (k.entries (.call c)) k.roster (k.call c).2 (k.call c).1.roster := by
  have hlike : ∀ {p : Pc}, p.phase = .live → p.spawns = none → p.Like (k.pc k.cpu) := by
    intro p h₁ h₂
    rw [hrun]
    exact ⟨h₁, h₂⟩
  cases c with
  | lock | condWait | broadcast | wait | yield => exact move_quiet rfl (hlike rfl rfl)
  | tryLock r =>
    dsimp only [call]
    split <;> exact move_same rfl
  | unlock r => exact move_unlockStep (hlike rfl rfl)
  | signal r => exact move_signalStep (hlike rfl rfl) (hlike rfl rfl)
  | cvWait c => exact move_markBlocked rfl (by rw [hrun]; rfl) (hlike rfl rfl)
  | cvSignal c =>
    dsimp only [call, entries, wakes]
    cases k.condvars c with
    | nil => exact move_same rfl
    | cons t ts => exact move_unblockTid rfl (hlike rfl rfl)
  | cvBroadcast c => exact move_unblockAll rfl (hlike rfl rfl)
  | exit code =>
    dsimp only [call]
    split
    next hin =>
      cases (k.tasks k.cpu).parent with
      | none => exact move_exit (p := .exitRemove) rfl hin hrun rfl rfl rfl rfl
      | some pid => exact move_exit (p := .exitWake pid) rfl hin hrun rfl rfl rfl rfl
    next hout => exact .leave (Bool.eq_false_iff.mpr hout) hrun
  | kill pid =>
    dsimp only [call]
    repeat' split
    · exact move_quiet rfl (hlike rfl rfl)
    all_goals exact move_same rfl
  | spawn priority parent => exact move_create rfl hrun
  | clone | fork =>
    dsimp only [call]
    split
    · exact move_create rfl hrun
    · exact move_same rfl

/-- Every later step is. -/
theorem move_next {n : Nat} (h : k.next n = some (k', es)) :
    Move (k.entries (.next n)) k.roster es k'.roster := by
  have hlike : ∀ {p q : Pc}, k.pc k.cpu = q → p.phase = q.phase → p.spawns = q.spawns →
      p.Like (k.pc k.cpu) := by
    rintro p q rfl h₁ h₂
    exact ⟨h₁, h₂⟩
  have hnext := next_inv h
  unfold entries wakes switches removes
  generalize hpc : k.pc k.cpu = place at hnext
  cases hnext with
  | lock r => exact move_lockStep (.inl hpc)
  | condLock r => exact move_lockStep (.inr hpc)
  | condMark | waitMark => exact move_markBlocked rfl (by rw [hpc]; rfl) (hlike hpc rfl rfl)
  | condUnlock r => exact move_unlockStep (hlike hpc rfl rfl)
  | broadcast r => exact move_signalStep (hlike hpc rfl rfl) (hlike hpc rfl rfl)
  | wait target => exact move_waitStep hpc
  | exitWake | exitAlone | scheduleLater | cvReturn => exact move_quiet rfl (hlike hpc rfl rfl)
  | exitRemove =>
    refine move_of_eq (.remove (by simp) hpc) rfl ?_
    rw [roster_goto]
    simp only [roster, queued, removeCurrent_spec.1,
      removeCurrent_spec.2]
  | spawnPush t =>
    refine move_of_eq (.push hpc) rfl ?_
    rw [roster_goto]
    simp only [roster, push_queued, push_current]
  | wake t next => exact move_unblockTid rfl (hlike hpc rfl rfl)
  | schedule next =>
    refine move_quiet (p := .prepare next) ?_ (hlike hpc rfl rfl)
    rw [roster_goto, roster_shouldReschedule]
  | prepare next hdispatch =>
    exact move_dispatch (roster_goto next) (hlike hpc rfl rfl) id hdispatch

/-- **Every step of the kernel is a move of its roster.** -/
theorem step_move {op : Op} (h : k.step op = some (k', es)) :
    Move (k.entries op) k.roster es k'.roster := by
  cases op with
  | timer n => exact move_timer (fun hn => by rw [hn]; rfl) (timer_of_step h)
  | call c =>
    obtain ⟨hrun, rfl, rfl⟩ := call_of_step h
    exact move_call hrun
  | next n => exact move_next h

end Kernel

end AlaphiOS.Sched
