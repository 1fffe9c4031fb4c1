import AlaphiOS.Lib.Trace
import AlaphiOS.Process.Signal

/-!
# Signals from the sender to the handler

`SYS_KILL`, `SYS_SIGNAL` and the way of the handlers in `kernel/src/syscall/dispatch.rs` and
`kernel/src/process/task.rs`, together with `deliver_pending_signal`, over whole runs of all tasks.

A signal is pending exactly if it was sent since it was last delivered, and it is delivered before
all signals of a higher number (`signals_accounted`). Most system calls are `Books.quiet`: who
stays has the same signals pending, who is new has none. The two that are not are one event each
(`Books.event`).

Mirroring notes:
- `TASK_TABLE` is a list in the order of the tids. `Tid::next` and `Pid::next` do not wrap, so a
  new task is its last.
- `SYS_KILL` looks for the first task with the pid, whether it has exited or not. That it wakes a
  task that is blocked is left to the scheduler.
- A task that calls is in the table; what the calls return if it is not is left out.
-/

namespace AlaphiOS.Process

open Lib List
open AlaphiOS.Syscall (maxSignals efault enoent)

/-! ## The pending signals as a set -/

namespace SignalState

variable {s : SignalState} {signum n : Nat} {handler : UInt64}

/-- Signal `n` is pending. -/
def isPending (s : SignalState) (n : Nat) : Bool := s.pending.getLsbD n

theorem getLsbD_bit (hlt : signum < maxSignals) :
    (1#32 <<< signum).getLsbD n = decide (n = signum) := by
  have hlt : signum < 32 := hlt
  rw [BitVec.getLsbD_shiftLeft, BitVec.getLsbD_one]
  by_cases hn : n = signum
  · subst hn
    simp [hlt]
  · rw [decide_eq_false hn]
    by_cases hbelow : n < signum
    · simp [hbelow]
    · have hpos : ¬ n - signum = 0 := by omega
      simp [hpos]

theorem isPending_setPending (hlt : signum < maxSignals) :
    (s.setPending signum).isPending n = (s.isPending n || decide (n = signum)) := by
  unfold setPending isPending
  rw [if_pos hlt, BitVec.getLsbD_or, getLsbD_bit hlt]

theorem isPending_clearPending (hlt : signum < maxSignals) :
    (s.clearPending signum).isPending n = (s.isPending n && !decide (n = signum)) := by
  unfold clearPending isPending
  rw [if_pos hlt, BitVec.getLsbD_and, BitVec.getLsbD_not, getLsbD_bit hlt]
  cases hp : s.pending.getLsbD n with
  | false => rfl
  | true => rw [decide_eq_true (BitVec.lt_of_getLsbD hp), Bool.true_and]

/-- It is the lowest one that is next. -/
theorem nextPending_inv (h : s.nextPending = some (signum, handler)) :
    s.isPending signum = true ∧ handler = s.handlers signum ∧ ∀ m < signum, s.isPending m = false := by
  unfold nextPending at h
  split at h
  · cases h
  next hne =>
    cases h
    unfold trailingZeros
    cases hfind : (range 32).find? fun i => s.pending.getLsbD i with
    | none =>
      -- a word without a bit is zero
      refine absurd (BitVec.eq_of_getLsbD_eq fun i hi => ?_) hne
      have hbit := find?_eq_none.mp hfind i (mem_range.mpr hi)
      show s.pending.getLsbD i = (0#32).getLsbD i
      rw [BitVec.getLsbD_zero]
      exact (Bool.not_eq_true _).mp hbit
    | some i =>
      obtain ⟨hi, _, hlow⟩ := find?_range_eq_some.mp hfind
      exact ⟨hi, rfl, fun m hm => (Bool.not_eq_true' _).mp (hlow m hm)⟩

end SignalState

/-! ## All tasks -/

/-- A task, as far as signals go. -/
structure Receiver where
  tid : Nat
  pid : Nat
  signals : SignalState
  zombie : Bool

/-- The tasks and their signals. -/
structure Receivers where
  table : List Receiver
  nextTid : Nat
  nextPid : Nat

namespace Receivers

/-- The calls on signals and tasks. -/
inductive Call where
  /-- `SYS_KILL`. -/
  | kill (arg0 arg1 : Nat)
  /-- `SYS_SIGNAL`. -/
  | signal (arg0 : Nat) (arg1 : UInt64)
  | clone (flags : Nat)
  | fork
  | exit
  /-- The end of `wait` or `wait_tid` for a task that has exited. -/
  | reap (target : Nat)

/-- One step of a task or the kernel. -/
inductive Op where
  | call (t : Nat) (c : Call)
  /-- The end of a system call of `t`. -/
  | syscallEnd (t : Nat) (frame : TrapFrame) (mem : Mem)
  /-- The kernel makes a task (`Task::new`, `Task::new_user`). -/
  | spawn

/-- What is observed. -/
inductive Event where
  | sent (t signum : Nat)
  /-- With its handler; if this is 0, the task exits. -/
  | delivered (t signum : Nat) (handler : UInt64)

def Event.tid : Event → Nat
  | .sent t _ | .delivered t _ _ => t

def boot : Receivers := ⟨[], 1, 1⟩

/-- Write to a task through the table. -/
def modify (s : Receivers) (t : Nat) (signals : SignalState → SignalState)
    (zombie : Bool → Bool) : Receivers :=
  { s with table := s.table.map fun task =>
      if task.tid = t then { task with signals := signals task.signals, zombie := zombie task.zombie }
      else task }

/-- A task under the next tid, in a process of its own or in that of `pid`. -/
def create (s : Receivers) (pid : Option Nat) (handlers : Nat → UInt64) : Receivers where
  table := s.table ++ [⟨s.nextTid, pid.getD s.nextPid, ⟨0, handlers⟩, false⟩]
  nextTid := s.nextTid + 1
  nextPid := if pid.isSome then s.nextPid else s.nextPid + 1

/-- `CLONE_VM`, without which `SYS_CLONE` is refused. -/
def cloneVm : Nat := 0x100

/-- `CLONE_SIGHAND`. -/
def cloneSighand : Nat := 0x800

/-- `SYS_KILL`. -/
def sysKill (s : Receivers) (arg0 arg1 : Nat) : Int × Receivers × List Event :=
  let signum := arg1 % 256
  if signum ≥ maxSignals then (efault, s, [])
  else
    match s.table.find? (fun task => task.pid = arg0) with
    | some task => (0, s.modify task.tid (·.setPending signum) id, [.sent task.tid signum])
    | none => (enoent, s, [])

/-- `SYS_SIGNAL`. -/
def sysSignal (s : Receivers) (t arg0 : Nat) (arg1 : UInt64) : Int × Receivers :=
  let signum := arg0 % 256
  if signum ≥ maxSignals then (efault, s)
  else (0, s.modify t (·.setHandler signum arg1) id)

/-- The system calls of `caller`. -/
def syscall (s : Receivers) (caller : Receiver) : Call → Receivers × List Event
  | .kill arg0 arg1 => (s.sysKill arg0 arg1).2
  | .signal arg0 arg1 => ((s.sysSignal caller.tid arg0 arg1).2, [])
  | .clone flags =>
    (if flags &&& cloneVm = 0 then s
      else s.create caller.pid
        (if flags &&& cloneSighand ≠ 0 then caller.signals.handlers else fun _ => 0), [])
  | .fork => (s.create none caller.signals.handlers, [])
  | .exit => (s.modify caller.tid id fun _ => true, [])
  | .reap target =>
    ({ s with table := s.table.filter fun task => ¬ (task.tid = target ∧ task.zombie) }, [])

/-- `deliver_pending_signal` at the end of a system call of `caller`. -/
def syscallEnd (s : Receivers) (caller : Receiver) (frame : TrapFrame) (mem : Mem) :
    Option (Receivers × List Event) :=
  match deliverPendingSignal (some caller.signals) frame mem with
  | some (delivery, some signals) =>
    let exits := match delivery with
      | .exits _ => true
      | .nothing | .handler _ _ => false
    some (s.modify caller.tid (fun _ => signals) fun _ => exits,
      match caller.signals.nextPending with
      | some (signum, handler) => [.delivered caller.tid signum handler]
      | none => [])
  | _ => none

/-- The calls are made by tasks that have not exited. -/
def step (s : Receivers) : Op → Option (Receivers × List Event)
  | .call t c => (s.table.find? fun task => task.tid = t ∧ ¬ task.zombie).map (s.syscall · c)
  | .syscallEnd t frame mem =>
    (s.table.find? fun task => task.tid = t ∧ ¬ task.zombie).bind (s.syscallEnd · frame mem)
  | .spawn => some (s.create none fun _ => 0, [])

/-! ## The books -/

def Sent (t n : Nat) (e : Event) : Prop := e = .sent t n

def Delivered (t n : Nat) (e : Event) : Prop := ∃ handler, e = .delivered t n handler

/-- Sent, and not delivered since. -/
def Outstanding (t n : Nat) (tr : List Event) : Prop := Armed (Sent t n) (Delivered t n) tr

variable {s s' : Receivers} {tr : List Event} {t n signum : Nat} {task : Receiver}

theorem outstanding_sent :
    Outstanding t n (tr ++ [.sent t signum]) ↔ Outstanding t n tr ∨ n = signum := by
  unfold Outstanding
  rw [armed_snoc]
  constructor
  · rintro (h | ⟨h, _⟩)
    · cases h
      exact .inr rfl
    · exact .inl h
  · rintro (h | rfl)
    · exact .inr ⟨h, fun ⟨_, hd⟩ => by cases hd⟩
    · exact .inl rfl

theorem outstanding_delivered {handler : UInt64} :
    Outstanding t n (tr ++ [.delivered t signum handler]) ↔ Outstanding t n tr ∧ n ≠ signum := by
  unfold Outstanding
  rw [armed_snoc]
  constructor
  · rintro (h | ⟨h, hd⟩)
    · cases h
    · refine ⟨h, fun heq => hd ⟨handler, ?_⟩⟩
      rw [heq]
  · rintro ⟨h, hne⟩
    refine .inr ⟨h, fun ⟨_, hd⟩ => ?_⟩
    cases hd
    exact hne rfl

variable {e : Event} {signals : SignalState → SignalState} {zombie : Bool → Bool}
  {es : List Event}

/-- An event of another task. -/
theorem outstanding_other (h : e.tid ≠ t) : Outstanding t n (tr ++ [e]) ↔ Outstanding t n tr := by
  unfold Outstanding
  rw [armed_snoc]
  constructor
  · rintro (rfl | ⟨h, _⟩)
    · exact absurd rfl h
    · exact h
  · refine fun harmed => .inr ⟨harmed, fun ⟨_, hd⟩ => h ?_⟩
    rw [hd]
    rfl

/-- What is pending is what is outstanding, and whatever was delivered was the lowest signal that
was outstanding. -/
structure Books (s : Receivers) (tr : List Event) : Prop where
  pending : ∀ task ∈ s.table, ∀ n, task.signals.isPending n = true ↔ Outstanding task.tid n tr
  below : ∀ task ∈ s.table, task.tid < s.nextTid
  known : ∀ e ∈ tr, e.tid < s.nextTid
  lowest : ∀ {before t n handler after}, tr = before ++ .delivered t n handler :: after →
    Outstanding t n before ∧ ∀ m < n, ¬ Outstanding t m before

theorem books_boot : Books boot [] :=
  ⟨fun _ h => absurd h not_mem_nil, fun _ h => absurd h not_mem_nil,
    fun _ h => absurd h not_mem_nil, fun h => absurd h (by simp)⟩

section

variable (h : Books s tr)

include h

/-- Nothing is outstanding for a task that there has not been. -/
theorem Books.not_outstanding (ht : s.nextTid ≤ t) : ¬ Outstanding t n tr := by
  rintro ⟨before, e, between, rfl, rfl, _⟩
  have hlt := h.known (.sent t n) (mem_append_right _ mem_cons_self)
  exact absurd hlt (Nat.not_lt.mpr ht)

/-- A step without an event: who stays has the same signals pending, who is new has none. -/
theorem Books.quiet (hnext : s.nextTid ≤ s'.nextTid)
    (htable : ∀ task' ∈ s'.table,
      (∃ task ∈ s.table, task'.tid = task.tid ∧ task'.signals.pending = task.signals.pending) ∨
        (s.nextTid ≤ task'.tid ∧ task'.tid < s'.nextTid ∧ task'.signals.pending = 0)) :
    Books s' tr where
  pending := by
    intro task' ht n
    unfold SignalState.isPending
    rcases htable task' ht with ⟨task, htask, htid, heq⟩ | ⟨hnew, _, hzero⟩
    · rw [heq, htid]
      exact h.pending task htask n
    · rw [hzero]
      exact iff_of_false (by simp) (h.not_outstanding hnew)
  below := by
    intro task' ht
    rcases htable task' ht with ⟨task, htask, htid, _⟩ | ⟨_, hlt, _⟩
    · rw [htid]
      exact (h.below task htask).trans_le hnext
    · exact hlt
  known := fun e he => (h.known e he).trans_le hnext
  lowest := h.lowest

/-- A task is written to, and its pending signals stay. -/
theorem Books.modify
    (hsame : ∀ task ∈ s.table, task.tid = t → (signals task.signals).pending = task.signals.pending) :
    Books (s.modify t signals zombie) tr := by
  refine h.quiet le_rfl fun task' ht => .inl ?_
  obtain ⟨task, htask, rfl⟩ := mem_map.mp ht
  refine ⟨task, htask, ?_⟩
  split
  next heq => exact ⟨rfl, hsame task htask heq⟩
  · exact ⟨rfl, rfl⟩

theorem Books.create (pid : Option Nat) (handlers : Nat → UInt64) :
    Books (s.create pid handlers) tr := by
  refine h.quiet (Nat.le_succ _) fun task' ht => ?_
  rcases mem_append.mp ht with ht | ht
  · exact .inl ⟨task', ht, rfl, rfl⟩
  · cases mem_singleton.mp ht
    exact .inr ⟨le_rfl, Nat.lt_succ_self _, rfl⟩

/-- One event `e` about `task`. -/
theorem Books.event (htask : task ∈ s.table) (he : e.tid = task.tid)
    (hpending : ∀ task' ∈ s.table, task'.tid = task.tid → ∀ n,
      (signals task'.signals).isPending n = true ↔ Outstanding task.tid n (tr ++ [e]))
    (hlowest : ∀ {n handler}, e = .delivered task.tid n handler →
      Outstanding task.tid n tr ∧ ∀ m < n, ¬ Outstanding task.tid m tr) :
    Books (s.modify task.tid signals zombie) (tr ++ [e]) where
  pending := by
    intro task' ht n
    obtain ⟨x, hx, rfl⟩ := mem_map.mp ht
    split
    next heq =>
      show _ ↔ Outstanding x.tid n _
      rw [heq]
      exact hpending x hx heq n
    next hne =>
      rw [outstanding_other (he.trans_ne (Ne.symm hne))]
      exact h.pending x hx n
  below := by
    intro task' ht
    obtain ⟨x, hx, rfl⟩ := mem_map.mp ht
    split <;> exact h.below x hx
  known := by
    intro e' he'
    rcases mem_append.mp he' with he' | he'
    · exact h.known e' he'
    · rw [mem_singleton.mp he', he]
      exact h.below task htask
  lowest := by
    intro before x n handler after heq
    rcases eq_nil_or_concat after with rfl | ⟨init, last, rfl⟩
    · obtain ⟨rfl, hlast⟩ := append_inj' heq rfl
      have hlast := head_eq_of_cons_eq hlast
      have hx : x = task.tid := by
        rw [hlast] at he
        exact he
      subst hx
      exact hlowest hlast
    · have hsplit : before ++ .delivered x n handler :: init.concat last
          = (before ++ .delivered x n handler :: init) ++ [last] := by
        simp
      rw [hsplit] at heq
      exact h.lowest (append_inj' heq rfl).1

theorem Books.kill (arg0 arg1 : Nat) :
    Books (s.sysKill arg0 arg1).2.1 (tr ++ (s.sysKill arg0 arg1).2.2) := by
  unfold sysKill
  dsimp only
  split
  · rw [append_nil]
    exact h
  next hlt =>
    split
    next task hfind =>
      show Books (s.modify task.tid (·.setPending (arg1 % 256)) id)
        (tr ++ [.sent task.tid (arg1 % 256)])
      refine h.event (mem_of_find?_eq_some hfind) rfl (fun task' ht heq n => ?_)
        (nofun)
      rw [outstanding_sent, SignalState.isPending_setPending (Nat.not_le.mp hlt), Bool.or_eq_true,
        decide_eq_true_eq, h.pending task' ht, heq]
    · rw [append_nil]
      exact h

/-- A delivery takes the lowest pending signal. -/
theorem Books.syscallEnd (htask : task ∈ s.table) {frame : TrapFrame}
    {mem : Mem} (hend : s.syscallEnd task frame mem = some (s', es)) :
    Books s' (tr ++ es) := by
  unfold Receivers.syscallEnd deliverPendingSignal at hend
  cases hnext : task.signals.nextPending with
  | none =>
    simp only [hnext] at hend
    cases hend
    rw [append_nil]
    refine h.modify fun task' ht heq => BitVec.eq_of_getLsbD_eq fun n _ => ?_
    -- whoever has the tid has the same signals pending
    have hboth := (h.pending task htask n).trans (heq ▸ h.pending task' ht n).symm
    exact Bool.eq_iff_iff.mpr hboth
  | some p =>
    obtain ⟨signum, handler⟩ := p
    obtain ⟨hbit, _, hlow⟩ := SignalState.nextPending_inv hnext
    have hlt : signum < maxSignals := BitVec.lt_of_getLsbD hbit
    -- whether the task exits or a handler is entered, the same signal is taken off
    obtain ⟨exits, hend⟩ : ∃ exits : Bool, some (s.modify task.tid
        (fun _ => task.signals.clearPending signum) fun _ => exits,
        [Event.delivered task.tid signum handler]) = some (s', es) := by
      by_cases hzero : handler = 0
      · simp only [hnext, if_pos hzero] at hend
        exact ⟨true, hend⟩
      · cases hdeliver : deliver frame mem signum handler with
        | none =>
          simp only [hnext, if_neg hzero, hdeliver] at hend
          cases hend
        | some r =>
          simp only [hnext, if_neg hzero, hdeliver, Option.map_some] at hend
          exact ⟨false, hend⟩
    cases hend
    refine h.event htask rfl (fun _ _ _ n => ?_) fun heq => ?_
    · rw [outstanding_delivered, SignalState.isPending_clearPending hlt, Bool.and_eq_true,
        h.pending task htask, Bool.not_eq_true', decide_eq_false_iff_not]
    · cases heq
      refine ⟨(h.pending task htask signum).mp hbit, fun m hm hout => ?_⟩
      exact absurd ((h.pending task htask m).mpr hout) (by rw [hlow m hm]; exact Bool.false_ne_true)

theorem Books.syscall (task : Receiver) (c : Call) :
    Books (s.syscall task c).1 (tr ++ (s.syscall task c).2) := by
  cases c with
  | kill arg0 arg1 => exact h.kill arg0 arg1
  | signal arg0 arg1 =>
    dsimp only [Receivers.syscall, sysSignal]
    rw [append_nil]
    split
    · exact h
    next hlt =>
      show Books (s.modify task.tid (·.setHandler (arg0 % 256) arg1) id) tr
      refine h.modify fun x _ _ => ?_
      rw [SignalState.setHandler, if_pos (Nat.not_le.mp hlt)]
  | clone flags =>
    dsimp only [Receivers.syscall]
    rw [append_nil]
    split
    · exact h
    · exact h.create ..
  | fork =>
    rw [Receivers.syscall, append_nil]
    exact h.create ..
  | exit =>
    rw [Receivers.syscall, append_nil]
    show Books (s.modify task.tid id fun _ => true) tr
    exact h.modify fun _ _ _ => rfl
  | reap target =>
    rw [Receivers.syscall, append_nil]
    exact h.quiet le_rfl fun task' ht => .inl ⟨task', (mem_filter.mp ht).1, rfl, rfl⟩

theorem Books.step {op : Op} (hstep : s.step op = some (s', es)) :
    Books s' (tr ++ es) := by
  cases op with
  | call t c =>
    obtain ⟨task, -, hsys⟩ := map_inv hstep
    have hbooks := h.syscall task c
    rwa [hsys] at hbooks
  | syscallEnd t frame mem =>
    obtain ⟨task, htask, hend⟩ := bind_inv hstep
    exact h.syscallEnd (mem_of_find?_eq_some htask) hend
  | spawn =>
    cases hstep
    rw [append_nil]
    exact h.create ..

end

/-- **No signal is lost, and none is delivered twice.** In every run of all tasks, a signal is
pending for a task exactly if it was sent to it since its last delivery there; and every delivery
is one of such a signal, with no lower one outstanding. -/
theorem signals_accounted {ops : List Op} (hrun : exec (traced step) (boot, []) ops = some (s, tr)) :
    (∀ task ∈ s.table, ∀ n, task.signals.isPending n = true ↔ Outstanding task.tid n tr) ∧
    ∀ before t n handler after, tr = before ++ .delivered t n handler :: after →
      Outstanding t n before ∧ ∀ m < n, ¬ Outstanding t m before := by
  have hbooks : Books s tr := by
    refine exec_induction (P := fun _ _ => True)
      (I := fun x : Receivers × List Event => Books x.1 x.2) (fun x op x' hI _ hx => ?_) books_boot
      along_true hrun
    obtain ⟨es, hs, htr⟩ := traced_inv hx
    rw [htr]
    exact hI.step hs
  exact ⟨hbooks.pending, fun _ _ _ _ _ heq => hbooks.lowest heq⟩

/-- A process with two handlers is sent 9 and 5; at the end of the call it gets 5, and is sent 5
once more. -/
def sentTwice : List Op :=
  [.spawn, .call 1 (.signal 5 0x402000), .call 1 (.signal 9 0x403000), .call 1 (.kill 1 9),
    .call 1 (.kill 1 5), .syscallEnd 1 Session.interrupted.frame fun _ => 0, .call 1 (.kill 1 5)]

/-- 5 and 9 are outstanding. -/
theorem signals_accounted_sentTwice :
    ∃ s tr, exec (traced step) (boot, []) sentTwice = some (s, tr) ∧ Outstanding 1 5 tr ∧
      Outstanding 1 9 tr := by
  obtain ⟨⟨s, tr⟩, hrun, task, htask, htid, hfive, hnine⟩ :
      ∃ x ∈ exec (traced step) (boot, []) sentTwice, ∃ task ∈ x.1.table,
        task.tid = 1 ∧ task.signals.isPending 5 ∧ task.signals.isPending 9 := by
    decide +kernel
  have hbooks := (signals_accounted hrun).1 task htask
  rw [htid] at hbooks
  exact ⟨s, tr, hrun, (hbooks 5).mp hfive, (hbooks 9).mp hnine⟩

end Receivers

end AlaphiOS.Process
