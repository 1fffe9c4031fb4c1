import AlaphiOS.Lib.Run
import AlaphiOS.Syscall.Dispatch

/-!
# Signals

`kernel/src/process/signal.rs`, the branch `SYS_SIGRETURN` of `kernel/src/syscall/dispatch.rs`
and the end of `syscall_entry` in `kernel/src/arch/syscall.rs`. At the end of every system
call `deliver_pending_signal` may turn the trap frame into a call of the handler: it saves
the frame on the user stack, behind a piece of code that makes the call `SYS_SIGRETURN`, and
leaves the address of this code as the handler's return address.

`pushFrame` puts three things on the stack, at `newRsp` the return address, at `newRsp + 8` the
code, at `newRsp + 24` the frame, all of it below the interrupted `user_rsp`
(`pushFrame_out`, `newRsp_eq`). `returnFromHandler` is the way back: `ret`, the code as the
processor finds it in memory, and `SYS_SIGRETURN`, which looks for the frame 16 bytes above
whatever stack pointer it is called with. `return_deliver` joins the two for any memory that
still has the 152 bytes. `Session` is a user program with any number of handlers inside of each
other; `step_saved` says that its steps leave the saved frames, `signal_transparent` what
follows for a delivery and its return.

Mirroring notes:
- A register is a `UInt64`; stack addresses are numbers, and the subtractions are checked.
  The sums stay below the interrupted `user_rsp`.
- User memory is all addresses: a fault on the way is resolved by the page-fault handler.
- `handlers` is an array of `MAX_SIGNALS` words, and only such indices are used.
- `sysretq` continues at `rcx`, so a trap frame is also the registers of the user program
  after the call, with `rcx` in the place of `rip`.
-/

namespace AlaphiOS.Process

open Lib List Option
open AlaphiOS.Syscall (Sys maxSignals)

/-! ## Trap frames -/

/-- `TrapFrame`. -/
structure TrapFrame where
  r15 : UInt64
  r14 : UInt64
  r13 : UInt64
  r12 : UInt64
  rbp : UInt64
  rbx : UInt64
  r11 : UInt64
  r10 : UInt64
  r9 : UInt64
  r8 : UInt64
  rdi : UInt64
  rsi : UInt64
  rdx : UInt64
  rcx : UInt64
  rax : UInt64
  userRsp : UInt64
  deriving DecidableEq

open TrapFrame

namespace TrapFrame

/-- The fields in the order of `repr(C)`. -/
def words (f : TrapFrame) : List UInt64 :=
  [f.r15, f.r14, f.r13, f.r12, f.rbp, f.rbx, f.r11, f.r10, f.r9, f.r8, f.rdi, f.rsi, f.rdx, f.rcx,
    f.rax, f.userRsp]

def ofWords (ws : List UInt64) : TrapFrame where
  r15 := ws.getD 0 0
  r14 := ws.getD 1 0
  r13 := ws.getD 2 0
  r12 := ws.getD 3 0
  rbp := ws.getD 4 0
  rbx := ws.getD 5 0
  r11 := ws.getD 6 0
  r10 := ws.getD 7 0
  r9 := ws.getD 8 0
  r8 := ws.getD 9 0
  rdi := ws.getD 10 0
  rsi := ws.getD 11 0
  rdx := ws.getD 12 0
  rcx := ws.getD 13 0
  rax := ws.getD 14 0
  userRsp := ws.getD 15 0

/-- `core::ptr::write` of a trap frame. -/
def write (f : TrapFrame) (m : Mem) (a : Nat) : Mem := writeWords m a f.words

/-- `core::ptr::read` of a trap frame. -/
def read (m : Mem) (a : Nat) : TrapFrame := ofWords (readWords m a 16)

theorem read_write (f : TrapFrame) (m : Mem) (a : Nat) : read (f.write m a) a = f := by
  have hwords : readWords (f.write m a) a 16 = f.words := readWords_writeWords f.words
  unfold read
  rw [hwords]
  rfl

theorem read_congr {m m' : Mem} {a : Nat} (h : ∀ x, a ≤ x → x < a + 128 → m' x = m x) :
    read m' a = read m a := by
  unfold read
  rw [readWords_congr 16 h]

theorem write_out {f : TrapFrame} {m : Mem} {a x : Nat} (h : x < a ∨ a + 128 ≤ x) :
    f.write m a x = m x := writeWords_out f.words h

end TrapFrame

/-! ## `SignalState` -/

/-- `SignalState`. -/
structure SignalState where
  pending : BitVec 32
  handlers : Nat → UInt64

/-- `trailing_zeros`. -/
def trailingZeros (x : BitVec 32) : Nat := ((range 32).find? fun i => x.getLsbD i).getD 32

namespace SignalState

/-- `SignalState::new`. -/
def new : SignalState := ⟨0, fun _ => 0⟩

/-- `set_pending`. -/
def setPending (s : SignalState) (signum : Nat) : SignalState :=
  if signum < maxSignals then { s with pending := s.pending ||| 1#32 <<< signum } else s

/-- `clear_pending`. -/
def clearPending (s : SignalState) (signum : Nat) : SignalState :=
  if signum < maxSignals then { s with pending := s.pending &&& ~~~(1#32 <<< signum) } else s

/-- `set_handler`. -/
def setHandler (s : SignalState) (signum : Nat) (handler : UInt64) : SignalState :=
  if signum < maxSignals then { s with handlers := Function.update s.handlers signum handler } else s

/-- `next_pending`. -/
def nextPending (s : SignalState) : Option (Nat × UInt64) :=
  if s.pending = 0 then none
  else
    let signum := trailingZeros s.pending
    some (signum, s.handlers signum)

end SignalState

/-! ## Delivery -/

/-- `TRAMPOLINE_PAD`. -/
def trampolinePad : Nat := 16

/-- `size_of::<TrapFrame>()`. -/
def frameSize : Nat := 128

/-- `TRAMPOLINE`: `mov eax, 54`, `syscall`, a loop, `nop`. -/
def trampoline : List UInt8 := [0xB8, 54, 0x00, 0x00, 0x00, 0x0F, 0x05, 0xEB, 0xFE, 0x90]

/-- `(old_rsp - frame_size - TRAMPOLINE_PAD - 8) & !0xF`. -/
def newRsp (oldRsp : Nat) : Option Nat := do
  let a ← usizeSub oldRsp frameSize
  let a ← usizeSub a trampolinePad
  let a ← usizeSub a 8
  some (a / 16 * 16)

/-- What is put on the stack at `rsp`. -/
def pushFrame (frame : TrapFrame) (m : Mem) (rsp : Nat) : Mem :=
  let trampAddr := rsp + 8
  let savedAddr := rsp + 8 + trampolinePad
  let m := frame.write m savedAddr
  let m := blit m trampAddr trampoline.length fun i => trampoline.getD i 0
  let m := fill m (trampAddr + trampoline.length) (trampolinePad - trampoline.length) 0x90
  writeWord m rsp trampAddr

/-- The rest of `deliver_pending_signal`, for a handler that is not 0. -/
def deliver (frame : TrapFrame) (m : Mem) (signum : Nat) (handler : UInt64) :
    Option (TrapFrame × Mem) :=
  (newRsp frame.userRsp.toNat).map fun rsp =>
    ({ frame with rcx := handler, userRsp := UInt64.ofNat rsp, rdi := UInt64.ofNat signum },
      pushFrame frame m rsp)

/-- What `deliver_pending_signal` comes to. -/
inductive Delivery where
  /-- It returns without a signal. -/
  | nothing
  /-- It calls `exit`. -/
  | exits (code : Int)
  /-- The frame and the user memory are those of a call of the handler. -/
  | handler (frame : TrapFrame) (mem : Mem)

/-- `deliver_pending_signal`; `task` is what the table has under the current tid. -/
def deliverPendingSignal (task : Option SignalState) (frame : TrapFrame) (m : Mem) :
    Option (Delivery × Option SignalState) :=
  match task with
  | none => some (.nothing, none)
  | some signals =>
    match signals.nextPending with
    | none => some (.nothing, signals)
    | some (signum, handler) =>
      let signals := signals.clearPending signum
      if handler = 0 then some (.exits (-signum), signals)
      else (deliver frame m signum handler).map fun r => (.handler r.1 r.2, signals)

/-! ## The way back -/

/-- The number with which the code at `rip` enters the kernel, if it is `mov eax, imm32` and
`syscall`. -/
def syscallAt (m : Mem) (rip : Nat) : Option Nat :=
  if m rip = 0xB8 ∧ m (rip + 5) = 0x0F ∧ m (rip + 6) = 0x05 then some (readLE m (rip + 1) 4)
  else none

/-- `SYS_SIGRETURN`, and `syscall_entry` storing its return value. -/
def sigreturn (frame : TrapFrame) (m : Mem) : TrapFrame :=
  let saved := read m (frame.userRsp.toNat + 16)
  { saved with rax := saved.rax }

/-- The handler's `ret` and the code it returns to, if this is a call of `SYS_SIGRETURN`; the
other registers are `frame`. -/
def returnFromHandler (frame : TrapFrame) (m : Mem) : Option TrapFrame := do
  let rsp := frame.userRsp.toNat
  let rip := readWord m rsp
  let nr ← syscallAt m rip
  if Sys.ofNumber nr = some .sigreturn then
    some (sigreturn { frame with
      rax := UInt64.ofNat nr
      rcx := UInt64.ofNat (rip + 7)
      userRsp := UInt64.ofNat (rsp + 8) } m)
  else none

section

variable {frame f : TrapFrame} {m m' : Mem} {old rsp x : Nat}

theorem newRsp_eq (h : 152 ≤ old) :
    ∃ rsp, newRsp old = some rsp ∧ rsp + 152 ≤ old ∧ old ≤ rsp + 167 := by
  refine ⟨(old - 152) / 16 * 16, ?_, by omega, by omega⟩
  unfold newRsp usizeSub frameSize trampolinePad
  rw [if_pos (by omega)]
  simp only [bind_eq_bind, bind_some]
  rw [if_pos (by omega), bind_some, if_pos (by omega), bind_some, Nat.sub_sub,
    Nat.sub_sub]

theorem newRsp_inv (h : newRsp old = some rsp) : 152 ≤ old := by
  unfold newRsp usizeSub frameSize trampolinePad at h
  simp only [bind_eq_bind, bind_eq_some_iff, ite_none_right_eq_some] at h
  obtain ⟨a, ⟨_, ha⟩, b, ⟨_, hb⟩, c, ⟨_, hc⟩, -⟩ := h
  have ha := some.inj ha
  have hb := some.inj hb
  omega

/-- Only the 152 bytes from the new stack pointer on are written. -/
theorem pushFrame_out (h : x < rsp ∨ rsp + 152 ≤ x) : pushFrame frame m rsp x = m x := by
  unfold pushFrame trampolinePad trampoline
  dsimp only [length_cons, length_nil]
  rw [writeWord, blit_out (by omega), fill, blit_out (by omega), blit_out (by omega),
    write_out (by omega)]

theorem pushFrame_return (h : rsp + 8 < 2 ^ 64) : readWord (pushFrame frame m rsp) rsp = rsp + 8 :=
  readWord_writeWord h

theorem pushFrame_code {i : Nat} (h : i < 10) :
    pushFrame frame m rsp (rsp + 8 + i) = trampoline.getD i 0 := by
  unfold pushFrame trampolinePad
  rw [show trampoline.length = 10 from rfl, writeWord, blit_out (by omega), fill, blit_out (by omega),
    blit_at h]

theorem pushFrame_saved : read (pushFrame frame m rsp) (rsp + 24) = frame := by
  have hread : read (pushFrame frame m rsp) (rsp + 24)
      = read (frame.write m (rsp + 24)) (rsp + 24) := by
    refine read_congr fun x hlo hhi => ?_
    unfold pushFrame trampolinePad
    rw [show trampoline.length = 10 from rfl, writeWord, blit_out (by omega), fill,
      blit_out (by omega), blit_out (by omega)]
  rw [hread, read_write]

/-- The code on the stack calls `SYS_SIGRETURN`. -/
theorem syscallAt_pushFrame (h : ∀ x, rsp ≤ x → x < rsp + 152 → m' x = pushFrame frame m rsp x) :
    syscallAt m' (rsp + 8) = some Sys.sigreturn.number := by
  have hcode : ∀ i, i < 10 → m' (rsp + 8 + i) = trampoline.getD i 0 := by
    intro i hi
    rw [h _ (by omega) (by omega), pushFrame_code hi]
  have hnumber : readLE m' (rsp + 8 + 1) 4 = 54 := by
    simp only [readLE]
    rw [hcode 1 (by decide), hcode 2 (by decide), hcode 3 (by decide), hcode 4 (by decide)]
    rfl
  unfold syscallAt
  rw [if_pos ⟨hcode 0 (by decide), hcode 5 (by decide), hcode 6 (by decide)⟩, hnumber]
  rfl

/-- The handler returns with the stack pointer it was entered with, and the bytes that the
delivery wrote are as they were: the frame is the one that was delivered to. -/
theorem return_deliver (hrsp : f.userRsp.toNat = rsp) (hlt : rsp + 152 < 2 ^ 64)
    (h : ∀ x, rsp ≤ x → x < rsp + 152 → m' x = pushFrame frame m rsp x) :
    returnFromHandler f m' = some frame := by
  have hrip : readWord m' rsp = rsp + 8 := by
    rw [readWord_congr fun x h₁ h₂ => h x h₁ (by omega), pushFrame_return (by omega)]
  have hsaved : read m' (rsp + 8 + 16) = frame := by
    rw [read_congr fun x h₁ h₂ => h x (by omega) (by omega)]
    exact pushFrame_saved
  have hnumber : Sys.ofNumber Sys.sigreturn.number = some .sigreturn := by decide
  have htop : (UInt64.ofNat (rsp + 8)).toNat = rsp + 8 :=
    UInt64.toNat_ofNat_of_lt (show rsp + 8 < 2 ^ 64 by omega)
  unfold returnFromHandler
  dsimp only
  rw [hrsp, hrip, bind_of_eq (syscallAt_pushFrame h), if_pos hnumber]
  unfold sigreturn
  dsimp only
  rw [htop, hsaved]

end

/-! ## Handlers inside of handlers -/

/-- A delivery whose handler has not returned: the frame it was given, the stack pointer of
the handler's entry, and the memory it left. -/
structure Running where
  received : TrapFrame
  entry : Nat
  mem : Mem

/-- A user program in a system call or between two: its registers, its memory and the
handlers that run, the innermost first. -/
structure Session where
  frame : TrapFrame
  mem : Mem
  running : List Running

namespace Session

/-- What happens to the task. -/
inductive Op where
  /-- The program runs, with system calls that end without a handler; it may leave any
  registers and any memory. -/
  | run (frame : TrapFrame) (mem : Mem)
  /-- A system call ends, `signals` is the `SignalState` of the task, and
  `deliver_pending_signal` calls a handler. -/
  | deliver (signals : SignalState)
  /-- The innermost handler returns. -/
  | sigreturn

/-- Let it happen. -/
def step (s : Session) : Op → Option Session
  | .run frame mem => some { s with frame := frame, mem := mem }
  | .deliver signals =>
    match deliverPendingSignal (some signals) s.frame s.mem with
    | some (.handler frame mem, _) =>
      some ⟨frame, mem, ⟨s.frame, frame.userRsp.toNat, mem⟩ :: s.running⟩
    | _ => none
  | .sigreturn => (returnFromHandler s.frame s.mem).map fun frame =>
    { s with frame := frame, running := s.running.tail }

/-- What the deliveries have put on the stack is still there in `mem`. -/
def Intact (s : Session) (mem : Mem) : Prop :=
  ∀ r ∈ s.running, ∀ x, r.entry ≤ x → x < r.entry + 152 → mem x = s.mem x

/-- The handlers leave the saved frames and the trampolines intact: none is stored to, and the
kernel is not entered with a stack pointer that makes it store there. The stack pointer is at
most that of the handler's entry, or it belongs to another stack. -/
def Behaves (s : Session) : Op → Prop
  | .run _ mem => s.Intact mem
  | .deliver _ => ∀ r ∈ s.running,
      s.frame.userRsp.toNat ≤ r.entry ∨ r.entry + 319 ≤ s.frame.userRsp.toNat
  | .sigreturn => True

variable {s s' s₁ s₂ : Session} {op : Op} {signals : SignalState} {signum rsp : Nat} {handler : UInt64}

/-- The session in which the handler runs. -/
def entered (s : Session) (signum : Nat) (handler : UInt64) (rsp : Nat) : Session where
  frame := { s.frame with
    rcx := handler, userRsp := UInt64.ofNat rsp, rdi := UInt64.ofNat signum }
  mem := pushFrame s.frame s.mem rsp
  running := ⟨s.frame, (UInt64.ofNat rsp).toNat, pushFrame s.frame s.mem rsp⟩ :: s.running

theorem step_deliver (hnext : signals.nextPending = some (signum, handler)) (hhandler : handler ≠ 0)
    (hrsp : newRsp s.frame.userRsp.toNat = some rsp) :
    s.step (.deliver signals) = some (s.entered signum handler rsp) := by
  unfold step deliverPendingSignal deliver
  simp only [hnext, hrsp, if_neg hhandler, map_some]
  rfl

theorem step_deliver_inv (h : s.step (.deliver signals) = some s') :
    ∃ signum handler rsp, newRsp s.frame.userRsp.toNat = some rsp ∧
      s' = s.entered signum handler rsp := by
  unfold step deliverPendingSignal deliver at h
  cases hnext : signals.nextPending with
  | none =>
    simp only [hnext] at h
    cases h
  | some p =>
    obtain ⟨signum, handler⟩ := p
    by_cases hhandler : handler = 0
    · simp only [hnext, if_pos hhandler] at h
      cases h
    cases hrsp : newRsp s.frame.userRsp.toNat with
    | none =>
      simp only [hnext, if_neg hhandler, hrsp] at h
      cases h
    | some rsp =>
      simp only [hnext, if_neg hhandler, hrsp, map_some] at h
      exact ⟨signum, handler, rsp, rfl, (some.inj h).symm⟩

theorem toNat_rsp {old : UInt64} (h : rsp + 152 ≤ old.toNat) : (UInt64.ofNat rsp).toNat = rsp := by
  have := old.toNat_lt
  exact UInt64.toNat_ofNat_of_lt (show rsp < 2 ^ 64 by omega)

/-- A step leaves what a delivery has put on the stack. -/
theorem step_saved {r : Running} (hok : s.Behaves op) (h : s.step op = some s')
    (hs : r ∈ s.running → ∀ x, r.entry ≤ x → x < r.entry + 152 → s.mem x = r.mem x) :
    r ∈ s'.running → ∀ x, r.entry ≤ x → x < r.entry + 152 → s'.mem x = r.mem x := by
  intro hr x hlo hhi
  cases op with
  | run frame mem =>
    cases h
    exact (hok r hr x hlo hhi).trans (hs hr x hlo hhi)
  | deliver signals =>
    obtain ⟨signum, handler, rsp, hrsp, rfl⟩ := step_deliver_inv h
    obtain rfl | hr := mem_cons.mp hr
    · rfl
    -- an older record: the new frame lies below it, or on another stack
    obtain ⟨rsp', hrsp', hle, hge⟩ := newRsp_eq (newRsp_inv hrsp)
    cases hrsp.symm.trans hrsp'
    have hout : x < rsp ∨ rsp + 152 ≤ x := by
      obtain hbelow | habove := hok r hr <;> omega
    exact (pushFrame_out hout).trans (hs hr x hlo hhi)
  | sigreturn =>
    obtain ⟨frame, -, rfl⟩ := map_inv h
    exact hs (mem_of_mem_tail hr) x hlo hhi

/-- A signal is delivered; whatever the handler does, with further handlers inside of it, once
it is the innermost again and returns with the stack pointer of its entry, the trap frame is
the one that `deliver_pending_signal` was given. The delivery leaves the memory at and above
the interrupted stack pointer. -/
theorem signal_transparent (s : Session) (signals : SignalState) (signum : Nat) (handler : UInt64)
    (hnext : signals.nextPending = some (signum, handler)) (hhandler : handler ≠ 0)
    (hrsp : 152 ≤ s.frame.userRsp.toNat) :
    ∃ s₁, s.step (.deliver signals) = some s₁ ∧
      (∀ x, s.frame.userRsp.toNat ≤ x → s₁.mem x = s.mem x) ∧
      ∀ body s₂, exec step s₁ body = some s₂ → Along step Behaves s₁ body →
        s₂.running = s₁.running → s₂.frame.userRsp = s₁.frame.userRsp →
        ∃ s₃, s₂.step .sigreturn = some s₃ ∧ s₃.frame = s.frame := by
  obtain ⟨rsp, hnew, hle, -⟩ := newRsp_eq hrsp
  have hlt := s.frame.userRsp.toNat_lt
  have htop : (UInt64.ofNat rsp).toNat = rsp := toNat_rsp hle
  refine ⟨s.entered signum handler rsp, step_deliver hnext hhandler hnew, ?_, ?_⟩
  · intro x hx
    exact pushFrame_out (.inr (by omega))
  intro body s₂ hrun hok hrunning hback
  -- the record of this delivery is there all the time, with its bytes
  have hsaved : ∀ x, rsp ≤ x → x < rsp + 152 → s₂.mem x = pushFrame s.frame s.mem rsp x := by
    have hinv := exec_induction (P := Behaves)
      (I := fun t => ⟨s.frame, (UInt64.ofNat rsp).toNat, pushFrame s.frame s.mem rsp⟩ ∈ t.running →
        ∀ x, (UInt64.ofNat rsp).toNat ≤ x → x < (UInt64.ofNat rsp).toNat + 152 →
          t.mem x = pushFrame s.frame s.mem rsp x)
      (fun t op t' hI hP ht => step_saved hP ht hI) (fun _ _ _ _ => rfl) hok hrun
    have hthere : ⟨s.frame, (UInt64.ofNat rsp).toNat, pushFrame s.frame s.mem rsp⟩ ∈ s₂.running := by
      rw [hrunning]
      exact mem_cons_self
    exact fun x hlo hhi => hinv hthere x (by omega) (by omega)
  have hreturn : returnFromHandler s₂.frame s₂.mem = some s.frame := by
    refine return_deliver ?_ (by omega) hsaved
    rw [hback]
    exact htop
  refine ⟨{ s₂ with frame := s.frame, running := s₂.running.tail }, ?_, rfl⟩
  rw [step, hreturn, map_some]

/-- A program in a system call, with a stack pointer that is not aligned. -/
def interrupted : Session where
  frame := ⟨1, 2, 3, 4, 5, 6, 7, 8, 9, 10, 11, 12, 13, 0x401000, 14, 0x7fe9⟩
  mem := fun _ => 0
  running := []

def pendingFive : SignalState := (SignalState.new.setHandler 5 0x402000).setPending 5

def pendingNine : SignalState := (SignalState.new.setHandler 9 0x403000).setPending 9

/-- A handler that does nothing. -/
theorem entered_sigreturn (h : rsp + 152 ≤ s.frame.userRsp.toNat) :
    (s.entered signum handler rsp).step .sigreturn
      = some ⟨s.frame, pushFrame s.frame s.mem rsp, s.running⟩ := by
  have hlt := s.frame.userRsp.toNat_lt
  have hreturn : returnFromHandler (s.entered signum handler rsp).frame
      (pushFrame s.frame s.mem rsp) = some s.frame :=
    return_deliver (toNat_rsp h) (by omega) fun _ _ _ => rfl
  show (returnFromHandler _ (pushFrame s.frame s.mem rsp)).map _ = _
  rw [hreturn]
  rfl

/-- The handler of signal 5 makes a system call, in which signal 9 is delivered and handled. -/
theorem signal_transparent_nested :
    ∃ s₁ s₂ s₃, interrupted.step (.deliver pendingFive) = some s₁ ∧
      exec step s₁ [.run { s₁.frame with rax := 0 } s₁.mem, .deliver pendingNine, .sigreturn]
        = some s₂ ∧
      s₂.step .sigreturn = some s₃ ∧ s₃.frame = interrupted.frame := by
  obtain ⟨s₁, h₁, -, hreturn⟩ := signal_transparent interrupted pendingFive 5 0x402000
    (by decide) (by decide) (by decide)
  have hfive : interrupted.step (.deliver pendingFive)
      = some (interrupted.entered 5 0x402000 0x7f50) :=
    step_deliver (by decide) (by decide) (by decide)
  cases hfive.symm.trans h₁
  generalize hs₁ : interrupted.entered 5 0x402000 0x7f50 = s₁ at *
  have htop : s₁.frame.userRsp.toNat = 0x7f50 := by
    rw [← hs₁]
    decide
  have hentry : ∀ r ∈ s₁.running, r.entry = 0x7f50 := by
    rw [← hs₁]
    intro r hr
    obtain rfl := mem_singleton.mp hr
    decide
  have hnine : step { s₁ with frame := { s₁.frame with rax := 0 } } (.deliver pendingNine)
      = some (entered { s₁ with frame := { s₁.frame with rax := 0 } } 9 0x403000 0x7eb0) := by
    refine step_deliver (by decide) (by decide) ?_
    rw [htop]
    decide
  have hrun : exec step s₁
      [.run { s₁.frame with rax := 0 } s₁.mem, .deliver pendingNine, .sigreturn] = some
        ⟨{ s₁.frame with rax := 0 }, pushFrame { s₁.frame with rax := 0 } s₁.mem 0x7eb0, s₁.running⟩ := by
    rw [exec, step, bind_some, exec, hnine, bind_some, exec,
      entered_sigreturn (by rw [htop]; decide)]
    rfl
  have hok : Along step Behaves s₁
      [.run { s₁.frame with rax := 0 } s₁.mem, .deliver pendingNine, .sigreturn] := by
    refine ⟨fun _ _ _ _ _ => rfl, fun t ht => ?_⟩
    cases ht
    refine ⟨fun r hr => .inl ?_, fun _ _ => ⟨trivial, fun _ _ => trivial⟩⟩
    exact (htop.trans (hentry r hr).symm).le
  obtain ⟨s₃, h₃, hframe⟩ := hreturn _ _ hrun hok rfl rfl
  exact ⟨s₁, _, s₃, h₁, hrun, h₃, hframe⟩

end Session

end AlaphiOS.Process
