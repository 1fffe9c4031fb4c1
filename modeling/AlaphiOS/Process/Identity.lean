import AlaphiOS.Fs.Overlay
import AlaphiOS.Lib.Run

/-!
# Who a task is

`uid` and `gid` of tasks: `SYS_LOGIN`, `SYS_LOGOUT` and `current_uid_gid` of
`kernel/src/syscall/dispatch.rs`, and what `clone_thread`, `fork_kernel`, `new` and
`new_user` of `kernel/src/process/task.rs` put into a new task.

Mirroring notes:
- Of a task, the table here has the identity and whether it has exited. `wait` and
  `wait_tid` take a task out of the table, and only one that has exited.
- A call is made by the task that runs, which is one that has not exited. Which one
  that is belongs to the scheduler; here it can be any.
- SHA-256 is a parameter, and the password table does not change while tasks run.
- `Tid::next` does not wrap.

Uid 0 is also what a task has that nobody logged in, and what `SYS_LOGOUT` puts
back: `logout_becomes_root` logs in as a user and out, and has all rights. Without
such a logout, a task that once was somebody is only ever somebody for whom it, or
a task it comes from, gave the password.
-/

namespace AlaphiOS.Process

open Function Std AlaphiOS.Lib AlaphiOS.Fs

/-- What matters of a task. -/
structure Task where
  uid : UInt32
  gid : UInt32
  zombie : Bool

/-- The task table, the next tid and the passwords. -/
structure Users where
  table : TreeMap Nat Task
  nextTid : Nat
  auth : AuthDb
  tidsBelow : ∀ {t task}, lookup table t = some task → t < nextTid

/-- The calls that change users. -/
inductive Syscall where
  /-- With the first argument, and the password or a null pointer. -/
  | login (arg0 : Nat) (pwd : Option (List UInt8))
  | logout
  | clone (flags : Nat)
  | fork
  | exit
  /-- The end of `wait` or `wait_tid` for a task that has exited. -/
  | reap (target : Nat)

/-- What changes the table. -/
inductive Op where
  | call (t : Nat) (c : Syscall)
  /-- The kernel makes a task (`Task::new`, `Task::new_user`). -/
  | spawn

namespace Users

variable (sha256 : List UInt8 → List UInt8)

/-- `current_uid_gid`. -/
def currentUidGid (s : Users) (t : Nat) : UInt32 × UInt32 :=
  match lookup s.table t with
  | some task => (task.uid, task.gid)
  | none => (0, 0)

/-- The task is there and has not exited. -/
def live (s : Users) (t : Nat) : Prop := ∃ task, lookup s.table t = some task ∧ task.zombie = false

/-- Write to a task through the table. -/
def modify (s : Users) (t : Nat) (f : Task → Task) : Users where
  table :=
    match lookup s.table t with
    | some task => s.table.insert t (f task)
    | none => s.table
  nextTid := s.nextTid
  auth := s.auth
  tidsBelow := by
    intro t' task' h
    cases htask : lookup s.table t with
    | none =>
      rw [htask] at h
      exact s.tidsBelow h
    | some task =>
      rw [htask] at h
      dsimp only at h
      rw [lookup_insert] at h
      by_cases ht : t' = t
      · exact ht ▸ s.tidsBelow htask
      · rw [update_of_ne ht] at h
        exact s.tidsBelow h

/-- A task with this identity under the next tid. -/
def create (s : Users) (uid gid : UInt32) : Users where
  table := s.table.insert s.nextTid ⟨uid, gid, false⟩
  nextTid := s.nextTid + 1
  auth := s.auth
  tidsBelow := by
    intro t task h
    rw [lookup_insert] at h
    by_cases ht : t = s.nextTid
    · omega
    · rw [update_of_ne ht] at h
      have := s.tidsBelow h
      omega

def remove (s : Users) (t : Nat) : Users where
  table := s.table.erase t
  nextTid := s.nextTid
  auth := s.auth
  tidsBelow := by
    intro t' task h
    rw [lookup_erase] at h
    by_cases ht : t' = t
    · rw [ht, update_self] at h
      cases h
    · rw [update_of_ne ht] at h
      exact s.tidsBelow h

/-- `SYS_LOGIN`'s call of `verify_password`, and what it was for. -/
def authenticates (s : Users) : Syscall → Option UInt32
  | .login arg0 (some pwd) =>
    let uidArg := UInt32.ofNat arg0
    if pwd ≠ [] ∧ s.auth.verify sha256 uidArg pwd then some uidArg else none
  | _ => none

/-- `CLONE_VM`, without which `SYS_CLONE` is refused. -/
def cloneVm : Nat := 0x100

/-- Make the call. -/
def syscall (s : Users) (t : Nat) (c : Syscall) : Users :=
  match c with
  | .login _ _ =>
    match s.authenticates sha256 c with
    | some uidArg => s.modify t fun task => { task with uid := uidArg, gid := uidArg }
    | none => s
  | .logout => s.modify t fun task => { task with uid := 0, gid := 0 }
  | .clone flags =>
    if flags &&& cloneVm = 0 then s
    else
      match lookup s.table t with
      | some task => s.create task.uid task.gid
      | none => s
  | .fork =>
    match lookup s.table t with
    | some task => s.create task.uid task.gid
    | none => s
  | .exit => s.modify t fun task => { task with zombie := true }
  | .reap target =>
    match lookup s.table target with
    | some task => if task.zombie then s.remove target else s
    | none => s

/-- One such change. -/
def step (s : Users) : Op → Option Users
  | .call t c =>
    match lookup s.table t with
    | some task => if task.zombie then none else some (s.syscall sha256 t c)
    | none => none
  | .spawn => some (s.create 0 0)

/-- The boot task and the idle task. -/
def boot (auth : AuthDb) : Users :=
  create (create ⟨∅, 1, auth, fun h => absurd ((congrFun lookup_empty _).symm.trans h) (by simp)⟩
    0 0) 0 0

end Users

/-! ## What authentication is for -/

/-- What is known of the past: for whom each task, or a task it was cloned or forked
from, gave a right password; and whether it has ever had another uid than 0. -/
structure History where
  authed : Nat → List UInt32
  somebody : Nat → Bool

/-- The history after a step from `s` to `s'`. -/
def History.after (sha256 : List UInt8 → List UInt8) (h : History) (s : Users) (op : Op)
    (s' : Users) : History where
  authed :=
    match op with
    | .call t c =>
      let authed := update h.authed t ((s.authenticates sha256 c).toList ++ h.authed t)
      -- a task made by the call has the past of the caller
      if s'.nextTid = s.nextTid then authed else update authed s.nextTid (h.authed t)
    | .spawn => h.authed
  somebody t := h.somebody t || (s'.currentUidGid t).1 != 0

/-- A step, with the history. -/
def Users.tracked (sha256 : List UInt8 → List UInt8) (s : Users × History) (op : Op) :
    Option (Users × History) :=
  (s.1.step sha256 op).map fun s' => (s', s.2.after sha256 s.1 op s')

/-- A logout is only made by a task with uid 0. -/
def Users.LogsOutNobody (s : Users) : Op → Prop
  | .call t .logout => (s.currentUidGid t).1 = 0
  | _ => True

instance (s : Users) : (op : Op) → Decidable (s.LogsOutNobody op)
  | .call t .logout => inferInstanceAs (Decidable ((s.currentUidGid t).1 = 0))
  | .call _ (.login ..) | .call _ (.clone _) | .call _ .fork | .call _ .exit | .call _ (.reap _)
  | .spawn => inferInstanceAs (Decidable True)

/-- Whoever is or was somebody has authenticated for the uid they have now. -/
structure Earned (s : Users) (h : History) : Prop where
  known : ∀ t task, lookup s.table t = some task → task.uid ≠ 0 ∨ h.somebody t = true →
    task.uid ∈ h.authed t
  fresh : ∀ t, s.nextTid ≤ t → h.somebody t = false

namespace Users

variable {s : Users} {t : Nat} {task : Task}

theorem currentUidGid_eq (htask : lookup s.table t = some task) :
    s.currentUidGid t = (task.uid, task.gid) := by
  unfold currentUidGid
  rw [htask]

theorem currentUidGid_none (hnone : lookup s.table t = none) : s.currentUidGid t = (0, 0) := by
  unfold currentUidGid
  rw [hnone]

theorem lookup_modify {f : Task → Task} : lookup (s.modify t f).table
    = update (lookup s.table) t ((lookup s.table t).map f) := by
  show lookup (match lookup s.table t with
    | some task => s.table.insert t (f task)
    | none => s.table) = _
  cases htask : lookup s.table t with
  | none => dsimp only; rw [Option.map_none, ← htask, update_eq_self]
  | some task => exact lookup_insert

theorem lookup_create {uid gid : UInt32} : lookup (s.create uid gid).table
    = update (lookup s.table) s.nextTid (some ⟨uid, gid, false⟩) :=
  lookup_insert

theorem lookup_remove : lookup (s.remove t).table = update (lookup s.table) t none :=
  lookup_erase

theorem currentUidGid_uncreated (ht : s.nextTid ≤ t) : s.currentUidGid t = (0, 0) := by
  cases htask : lookup s.table t with
  | none => exact currentUidGid_none htask
  | some task => have := s.tidsBelow htask; omega

end Users

/-! ## One step -/

section

open Users

variable {sha256 : List UInt8 → List UInt8} {s s' : Users} {h : History} {t : Nat} {task : Task}
  {op : Op} {uid : UInt32} {c : Syscall}

section

variable (hearned : Earned s h)

include hearned

/-- It is enough to look at those who were somebody before the step. -/
theorem Earned.after (hnext : s.nextTid ≤ s'.nextTid)
    (hknown : ∀ t task, lookup s'.table t = some task → task.uid ≠ 0 ∨ h.somebody t = true →
      task.uid ∈ (h.after sha256 s op s').authed t) : Earned s' (h.after sha256 s op s') where
  known := by
    intro t task htask hsome
    refine hknown t task htask ?_
    rcases hsome with huid | hbefore
    · exact .inl huid
    · rcases Bool.or_eq_true_iff.mp hbefore with hold | hnow
      · exact .inr hold
      · rw [currentUidGid_eq htask] at hnow
        exact .inl (bne_iff_ne.mp hnow)
  fresh := by
    intro t ht
    show (h.somebody t || (s'.currentUidGid t).1 != 0) = false
    rw [hearned.fresh t (by omega), currentUidGid_uncreated ht]
    rfl

/-- A step that makes no task and gives nobody another uid. -/
theorem Earned.kept (hnext : s'.nextTid = s.nextTid)
    (hsame : ∀ t task', lookup s'.table t = some task' →
      ∃ task, lookup s.table t = some task ∧ task.uid = task'.uid) :
    Earned s' (h.after sha256 s op s') := by
  have hmono : ∀ t, ∀ uid ∈ h.authed t, uid ∈ (h.after sha256 s op s').authed t := by
    intro t uid huid
    unfold History.after
    cases op with
    | spawn => exact huid
    | call caller c =>
      dsimp only
      rw [if_pos hnext]
      by_cases ht : t = caller
      · rw [ht, update_self]
        exact List.mem_append_right _ (ht ▸ huid)
      · rwa [update_of_ne ht]
  refine hearned.after (Nat.le_of_eq hnext.symm) fun t task' htask' hsome => ?_
  obtain ⟨task, htask, heq⟩ := hsame t task' htask'
  rw [← heq] at hsome ⊢
  exact hmono t _ (hearned.known t task htask hsome)

/-- A write that leaves the uid. -/
theorem Earned.modify {f : Task → Task}
    (huid : ∀ task, lookup s.table t = some task → (f task).uid = task.uid) :
    Earned (s.modify t f) (h.after sha256 s op (s.modify t f)) := by
  refine hearned.kept rfl fun t' task' htask' => ?_
  rw [lookup_modify] at htask'
  by_cases ht : t' = t
  · subst ht
    rw [update_self] at htask'
    obtain ⟨task, htask, rfl⟩ := map_inv htask'
    exact ⟨task, htask, (huid task htask).symm⟩
  · rw [update_of_ne ht] at htask'
    exact ⟨task', htask', rfl⟩

/-- A login gives the uid it authenticated for. -/
theorem Earned.login (hauth : s.authenticates sha256 c = some uid) :
    let s' := s.modify t fun task => { task with uid := uid, gid := uid }
    Earned s' (h.after sha256 s (.call t c) s') := by
  intro s'
  have hauthed : (h.after sha256 s (.call t c) s').authed
      = update h.authed t (uid :: h.authed t) := by
    show (if s.nextTid = s.nextTid then _ else _) = _
    rw [if_pos rfl, hauth]
    rfl
  refine hearned.after (Nat.le_refl _) fun t' task' htask' hsome => ?_
  rw [lookup_modify] at htask'
  rw [hauthed]
  by_cases ht : t' = t
  · subst ht
    rw [update_self] at htask' ⊢
    obtain ⟨task, _, rfl⟩ := map_inv htask'
    exact List.mem_cons_self
  · rw [update_of_ne ht] at htask' ⊢
    exact hearned.known t' task' htask' hsome

/-- A new task has the identity and the past of the caller, or is nobody. -/
theorem Earned.create {gid : UInt32}
    (hnew : uid ≠ 0 → uid ∈ (h.after sha256 s op (s.create uid gid)).authed s.nextTid)
    (hother : ∀ t, t ≠ s.nextTid →
      ∀ uid' ∈ h.authed t, uid' ∈ (h.after sha256 s op (s.create uid gid)).authed t) :
    Earned (s.create uid gid) (h.after sha256 s op (s.create uid gid)) := by
  refine hearned.after (Nat.le_succ _) fun t task htask hsome => ?_
  rw [lookup_create] at htask
  by_cases ht : t = s.nextTid
  · subst ht
    rw [update_self] at htask
    cases htask
    rw [hearned.fresh _ (Nat.le_refl _)] at hsome
    exact hnew (hsome.resolve_right Bool.false_ne_true)
  · rw [update_of_ne ht] at htask
    exact hother t ht _ (hearned.known t task htask hsome)

/-- A task that is cloned or forked. -/
theorem Earned.child (htask : lookup s.table t = some task) :
    Earned (s.create task.uid task.gid)
      (h.after sha256 s (.call t c) (s.create task.uid task.gid)) := by
  have hauthed : (h.after sha256 s (.call t c) (s.create task.uid task.gid)).authed
      = update (update h.authed t
          ((s.authenticates sha256 c).toList ++ h.authed t)) s.nextTid (h.authed t) := by
    show (if s.nextTid + 1 = s.nextTid then _ else _) = _
    rw [if_neg (by omega)]
  refine hearned.create (fun huid => ?_) fun t' ht' uid' huid' => ?_
  · rw [hauthed, update_self]
    exact hearned.known t task htask (.inl huid)
  · rw [hauthed, update_of_ne ht']
    by_cases ht : t' = t
    · rw [ht, update_self]
      exact List.mem_append_right _ (ht ▸ huid')
    · rwa [update_of_ne ht]

/-- Every step, if it does not log somebody out. -/
theorem Earned.step (hlogout : s.LogsOutNobody op)
    (hstep : s.step sha256 op = some s') : Earned s' (h.after sha256 s op s') := by
  have hkept : ∀ op, Earned s (h.after sha256 s op s) :=
    fun _ => hearned.kept rfl fun _ task htask => ⟨task, htask, rfl⟩
  cases op with
  | spawn =>
    cases hstep
    exact hearned.create (fun h => absurd rfl h) fun _ _ _ huid => huid
  | call t c =>
    dsimp only [Users.step] at hstep
    split at hstep
    next task htask =>
      split at hstep
      · cases hstep
      · cases hstep
        cases c with
        -- The one call that gives a user id.
        | login arg0 pwd =>
          dsimp only [syscall]
          split
          next uid hauth => exact hearned.login hauth
          · exact hkept _
        -- By `hlogout` the caller has the user id 0 already.
        | logout =>
          refine hearned.modify fun task' htask' => ?_
          rw [show s.LogsOutNobody _ = ((s.currentUidGid t).1 = 0) from rfl,
            currentUidGid_eq htask'] at hlogout
          exact hlogout.symm
        -- A child has the identity of its parent, and the history that goes with it.
        | clone flags =>
          dsimp only [syscall]
          split
          · exact hkept _
          · rw [htask]; exact hearned.child htask
        | fork =>
          dsimp only [syscall]
          rw [htask]
          exact hearned.child htask
        | exit => exact hearned.modify fun _ _ => rfl
        | reap target =>
          dsimp only [syscall]
          split
          next target' _ =>
            split
            · refine hearned.kept rfl fun t' task' htask' => ?_
              rw [lookup_remove] at htask'
              by_cases ht : t' = target
              · rw [ht, update_self] at htask'
                cases htask'
              · rw [update_of_ne ht] at htask'
                exact ⟨task', htask', rfl⟩
            · exact hkept _
          · exact hkept _
    · cases hstep

end

end

/-! ## Runs -/

namespace Users

variable {sha256 : List UInt8 → List UInt8} {s : Users} {h : History}

/-- Nobody has authenticated or been somebody. -/
def noHistory : History := ⟨fun _ => [], fun _ => false⟩

theorem create_nobody (hs : ∀ t task, lookup s.table t = some task → task.uid = 0) (t : Nat)
    (task : Task) (htask : lookup (s.create 0 0).table t = some task) : task.uid = 0 := by
  rw [lookup_create] at htask
  by_cases ht : t = s.nextTid
  · rw [ht, update_self] at htask
    rw [← Option.some.inj htask]
  · rw [update_of_ne ht] at htask
    exact hs t task htask

theorem boot_nobody (auth : AuthDb) (t : Nat) (task : Task)
    (htask : lookup (boot auth).table t = some task) : task.uid = 0 := by
  refine create_nobody (create_nobody fun t task hempty => ?_) t task htask
  exact absurd ((congrFun lookup_empty t).symm.trans hempty) (by simp)

/-- **Identity changes only by authentication**, if nobody who is somebody logs out:
in every state that calls reach, a task that once had a nonzero uid has a uid for
which it, or a task it was cloned or forked from, gave the password. -/
theorem identity_authenticated {auth : AuthDb} {ops : List Op}
    (hlogout : Along (tracked sha256) (fun s op => s.1.LogsOutNobody op) (boot auth, noHistory) ops)
    (hrun : exec (tracked sha256) (boot auth, noHistory) ops = some (s, h)) (t : Nat)
    (hlive : s.live t) (hsomebody : h.somebody t = true) :
    (s.currentUidGid t).1 ∈ h.authed t := by
  have hearned : Earned s h := by
    refine exec_induction (I := fun s => Earned s.1 s.2) ?_ ?_ hlogout hrun
    · rintro ⟨s, h⟩ op ⟨s', h'⟩ hI hlog hstep
      obtain ⟨s₁, hstep₁, heq⟩ := map_inv hstep
      cases heq
      exact Earned.step hI hlog hstep₁
    · refine ⟨fun t task htask hsome => ?_, fun _ _ => rfl⟩
      exact absurd (boot_nobody auth t task htask) (hsome.resolve_right Bool.false_ne_true)
  obtain ⟨task, htask, _⟩ := hlive
  rw [currentUidGid_eq htask]
  exact hearned.known t task htask (.inr hsomebody)

/-- The first 32 bytes of salt and password, in place of a hash. -/
def plainHash (bytes : List UInt8) : List UInt8 := (bytes ++ List.replicate 32 0).take 32

/-- User 5 has the password 1. -/
def oneUser : AuthDb :=
  AuthDb.put ∅ ⟨5, ⟨List.replicate 16 0, rfl⟩, ⟨List.replicate 16 0 ++ 1 :: List.replicate 15 0, rfl⟩⟩

/-- Task 1 logs in, after a wrong password, and forks; the child (task 3) tries to
become user 0, and task 2, which is nobody, logs out. -/
def loginFork : List Op :=
  [.call 1 (.login 5 (some [2])), .call 1 (.login 5 (some [1])), .call 1 .fork,
    .call 3 (.login 0 (some [1])), .call 2 .logout, .call 1 .exit, .call 2 (.reap 1)]

/-- A login and a fork. -/
theorem identity_authenticated_loginFork :
    ∃ s h, exec (tracked plainHash) (boot oneUser, noHistory) loginFork = some (s, h) ∧
      (s.currentUidGid 3).1 ∈ h.authed 3 := by
  have hend : (exec (tracked plainHash) (boot oneUser, noHistory) loginFork).map
      (fun x => ((lookup x.1.table 3).map Task.zombie, x.2.somebody 3)) = some (some false, true) := by
    decide +kernel
  obtain ⟨⟨s, h⟩, hrun, heq⟩ := map_inv hend
  obtain ⟨hzombie, hsomebody⟩ := Prod.mk.inj heq
  obtain ⟨task, htask, hlive⟩ := map_inv hzombie
  exact ⟨s, h, hrun,
    identity_authenticated (by decide +kernel) hrun 3 ⟨task, htask, hlive⟩ hsomebody⟩

/-- Log in as user 5 and out: the task has uid 0, for which nobody gave a password. -/
theorem logout_becomes_root :
    ∃ s h, exec (tracked plainHash) (boot oneUser, noHistory)
        [.call 1 (.login 5 (some [1])), .call 1 .logout] = some (s, h) ∧
      s.live 1 ∧ h.somebody 1 = true ∧ (s.currentUidGid 1).1 = 0 ∧ h.authed 1 = [5] := by
  have hend : (exec (tracked plainHash) (boot oneUser, noHistory)
      [.call 1 (.login 5 (some [1])), .call 1 .logout]).map (fun x =>
        ((lookup x.1.table 1).map Task.zombie, x.2.somebody 1, (x.1.currentUidGid 1).1, x.2.authed 1))
      = some (some false, true, 0, [5]) := by decide +kernel
  obtain ⟨⟨s, h⟩, hrun, heq⟩ := map_inv hend
  obtain ⟨hzombie, heq⟩ := Prod.mk.inj heq
  obtain ⟨hsomebody, heq⟩ := Prod.mk.inj heq
  obtain ⟨huid, hauthed⟩ := Prod.mk.inj heq
  obtain ⟨task, htask, hlive⟩ := map_inv hzombie
  exact ⟨s, h, hrun, ⟨task, htask, hlive⟩, hsomebody, huid, hauthed⟩

end Users

end AlaphiOS.Process
